import Mathlib.Data.Finset.Basic
import Somenote.Cvm.Source
import Somenote.Program.Protocol

/-! # The descriptors of the commands

`getresult`, `monitor` and `exec` open descriptors, and the loops of the commands call them once
or more for each machine. A call leaves the descriptors of the process as they are only if it
opens none, or if `monitor` reaches its `close`.
-/

namespace Somenote.Cvm.Descriptors

open Scan

section Source

def STDOUT_FILENO : ℕ := 1

def O_NONBLOCK : BitVec 32 := 0o4000

/-- The calls of the helpers. -/
inductive Sys
  | pipe
  | dup (fd : ℤ)
  | dup2 (fd : ℤ) (fd' : ℕ)
  | socket
  | bind (fd : ℤ)
  | connect (fd : ℤ)
  | read (fd : ℤ)
  | write (fd : ℤ)
  | close (fd : ℤ)
  | getfl (fd : ℤ)
  | setfl (fd : ℤ) (flag : BitVec 32)
  | fopen
  | fclose (fd : ℕ)
  | system
  | usleep
  | junk

/-- The two ends of a pipe; a descriptor, or -1, and the value of a variable that has none; the
flags of a descriptor; whether a call succeeds; the bytes that are read; the descriptor of a
stream. -/
@[reducible] def SysReply : Sys → Type
  | .pipe => Option (ℕ × ℕ)
  | .dup _ | .socket | .junk => ℤ
  | .getfl _ | .setfl .. => BitVec 32
  | .dup2 .. | .connect _ | .write _ => Bool
  | .read _ => List Byte
  | .fopen => Option ℕ
  | _ => Unit

abbrev Helper := Prog Sys SysReply Fault

def pipe : Helper (Option (ℕ × ℕ)) := .call .pipe .ret

def dup (fd : ℤ) : Helper ℤ := .call (.dup fd) .ret

def dup2 (fd : ℤ) (fd' : ℕ) : Helper Bool := .call (.dup2 fd fd') .ret

def socket : Helper ℤ := .call .socket .ret

def bind (fd : ℤ) : Helper Unit := .call (.bind fd) .ret

def connect (fd : ℤ) : Helper Bool := .call (.connect fd) .ret

def read (fd : ℤ) : Helper (List Byte) := .call (.read fd) .ret

def write (fd : ℤ) : Helper Bool := .call (.write fd) .ret

def close (fd : ℤ) : Helper Unit := .call (.close fd) .ret

def getfl (fd : ℤ) : Helper (BitVec 32) := .call (.getfl fd) .ret

def setfl (fd : ℤ) (flag : BitVec 32) : Helper (BitVec 32) := .call (.setfl fd flag) .ret

def fopen : Helper (Option ℕ) := .call .fopen .ret

def fclose (fd : ℕ) : Helper Unit := .call (.fclose fd) .ret

def system : Helper Unit := .call .system .ret

def usleep : Helper Unit := .call .usleep .ret

def junk : Helper ℤ := .call .junk .ret

def setnoblock (fd : ℤ) : Helper (BitVec 32) := do
  let flag ← getfl fd
  setfl fd (flag ||| O_NONBLOCK)

def setblock (fd : ℤ) : Helper (BitVec 32) := do
  let flag ← getfl fd
  setfl fd (flag &&& ~~~O_NONBLOCK)

/-- The log is written. `fprintf` needs the stream, and fails without one. -/
def xmlog : Helper Unit := do
  match ← fopen with
  | none => .dump .segv
  | some file => fclose file

/-- The array `fd` has no values before the call of `pipe`, which leaves it as it is when it
fails. -/
def getresult (olog : Bool) : Helper (List Byte) := do
  let fd₀ ← junk
  let fd₁ ← junk
  let fd := (← pipe).elim (fd₀, fd₁) fun p => (↑p.1, ↑p.2)
  let back_fd ← dup STDOUT_FILENO
  let _ ← dup2 fd.2 STDOUT_FILENO
  system
  let _ ← setnoblock fd.1
  let result ← read fd.1
  let _ ← setblock fd.1
  let _ ← dup2 back_fd STDOUT_FILENO
  if olog then do
    xmlog
    xmlog
    pure (cstr result)
  else pure (cstr result)

def monitor (olog : Bool) : Helper Bool := do
  let sockfd ← socket
  bind sockfd
  if !(← connect sockfd) then pure false
  else do
    usleep
    let _ ← read sockfd
    let _ ← write sockfd
    usleep
    let _ ← read sockfd
    close sockfd
    if olog then do
      xmlog
      xmlog
      pure true
    else pure true

def exec : Helper Bool := do
  let sock ← socket
  if !(← connect sock) then pure false
  else if !(← write sock) then pure false
  else pure true

end Source

section Kernel

/-- A call of a helper, and its reply. -/
structure Answer where
  call : Sys
  reply : SysReply call

/-- The number is that of an open descriptor. -/
def Open (fds : Finset ℕ) (fd : ℤ) : Prop := ∃ n ∈ fds, (n : ℤ) = fd

/-- A call that gives a new descriptor or -1. -/
def Acquires (fds : Finset ℕ) (fd : ℤ) (fds' : Finset ℕ) : Prop :=
  fd = -1 ∧ fds' = fds ∨ ∃ n ∉ fds, fd = (n : ℤ) ∧ fds' = insert n fds

/-- What a call does to the descriptors of the process. -/
def Env (fds : Finset ℕ) : (c : Sys) → SysReply c → Finset ℕ → Prop
  | .pipe, r, fds' =>
    r = none ∧ fds' = fds ∨
      ∃ a ∉ fds, ∃ b ∉ fds, a ≠ b ∧ r = some (a, b) ∧ fds' = insert a (insert b fds)
  | .dup fd, r, fds' => Acquires fds r fds' ∧ (r ≠ -1 → Open fds fd)
  | .dup2 fd fd', r, fds' => r = false ∧ fds' = fds ∨ r = true ∧ Open fds fd ∧ fds' = insert fd' fds
  | .socket, r, fds' => Acquires fds r fds'
  | .connect fd, r, fds' => (r = true → Open fds fd) ∧ fds' = fds
  | .close fd, _, fds' => fds' = fds.filter fun n : ℕ => (n : ℤ) ≠ fd
  | .fopen, r, fds' => r = none ∧ fds' = fds ∨ ∃ n ∉ fds, r = some n ∧ fds' = insert n fds
  | .fclose fd, _, fds' => fds' = fds.erase fd
  | _, _, fds' => fds' = fds

/-- The kernel answers the calls of a helper, which are logged. -/
def kernel : Protocol Sys SysReply (Finset ℕ × List Answer) where
  Ok _ _ := True
  Next g c r g' := Env g.1 c r g'.1 ∧ g'.2 = g.2 ++ [⟨c, r⟩]

namespace Answer

def PipeFails : Answer → Prop
  | ⟨.pipe, r⟩ => r = none
  | _ => False

def DupFails : Answer → Prop
  | ⟨.dup _, r⟩ => r = -1
  | _ => False

def Dup2s : Answer → Prop
  | ⟨.dup2 .., r⟩ => r = true
  | _ => False

def SocketFails : Answer → Prop
  | ⟨.socket, r⟩ => r = -1
  | _ => False

def Connects : Answer → Prop
  | ⟨.connect _, r⟩ => r = true
  | _ => False

/-- The log file is opened or closed. -/
def Logs : Answer → Prop
  | ⟨.fopen, _⟩ => True
  | ⟨.fclose _, _⟩ => True
  | _ => False

end Answer

/-- The helpers whose calls are followed. -/
inductive Kind
  | getresult
  | monitor
  | exec

/-- The outcomes of the calls of a helper that leave the descriptors as they are. -/
def Kind.Clean (fds : Finset ℕ) (log : List Answer) : Kind → Prop
  | getresult => (∃ a ∈ log, a.PipeFails) ∧ (∃ a ∈ log, a.DupFails) ∧
      (STDOUT_FILENO ∈ fds ∨ ∀ a ∈ log, ¬ a.Dup2s)
  | monitor => (∃ a ∈ log, a.SocketFails) ∨ ∃ a ∈ log, a.Connects
  | exec => ∃ a ∈ log, a.SocketFails

end Kernel

section Helpers

variable {fds fds' : Finset ℕ} {log : List Answer} {fd : ℤ}

theorem pipe_subset {r : Option (ℕ × ℕ)} (h : Env fds .pipe r fds') :
    fds ⊆ fds' ∧ (fds' = fds ↔ r = none) := by
  rcases h with ⟨rfl, rfl⟩ | ⟨a, ha, b, hb, -, rfl, rfl⟩
  · simp
  · refine ⟨(Finset.subset_insert b fds).trans (Finset.subset_insert a _), ?_⟩
    have hne : insert a (insert b fds) ≠ fds := fun he => ha (he ▸ Finset.mem_insert_self a _)
    simp [hne]

theorem dup2_subset {fd' : ℕ} {ok : Bool} (h : Env fds (.dup2 fd fd') ok fds') :
    fds ⊆ fds' ∧ (fds' = fds ↔ ok = false ∨ fd' ∈ fds) := by
  rcases h with ⟨rfl, rfl⟩ | ⟨rfl, -, rfl⟩
  · simp
  · exact ⟨Finset.subset_insert fd' fds, by simp⟩

theorem acquires_subset (h : Acquires fds fd fds') : fds ⊆ fds' := by
  rcases h with ⟨rfl, rfl⟩ | ⟨n, hn, rfl, rfl⟩
  · exact Finset.Subset.refl _
  · exact Finset.subset_insert n fds

theorem acquires_iff (h : Acquires fds fd fds') : fds' = fds ↔ fd = -1 := by
  rcases h with ⟨rfl, rfl⟩ | ⟨n, hn, rfl, rfl⟩
  · simp
  · simp only [Finset.insert_eq_self, hn, false_iff]
    omega

theorem not_open_neg : ¬ Open fds (-1) := by
  rintro ⟨n, -, hn⟩
  omega

theorem obeys_sys {α : Type} {c : Sys} {f : SysReply c → Helper α}
    {Q : α → Finset ℕ × List Answer → Prop}
    (h : ∀ r fds', Env fds c r fds' → (f r).Obeys kernel (fds', log ++ [⟨c, r⟩]) Q) :
    (Prog.call c .ret >>= f).Obeys kernel (fds, log) Q := by
  refine ⟨trivial, ?_⟩
  rintro r ⟨fds', log'⟩ ⟨henv, rfl⟩
  exact h r fds' henv

theorem obeys_same {α : Type} {c : Sys} {f : SysReply c → Helper α}
    {Q : α → Finset ℕ × List Answer → Prop}
    (hc : ∀ r fds', Env fds c r fds' → fds' = fds)
    (h : ∀ r, (f r).Obeys kernel (fds, log ++ [⟨c, r⟩]) Q) :
    (Prog.call c .ret >>= f).Obeys kernel (fds, log) Q := by
  refine obeys_sys fun r fds' henv => ?_
  rw [hc r fds' henv]
  exact h r

theorem obeys_xmlog : xmlog.Obeys kernel (fds, log) fun _ g =>
    ∃ l, g = (fds, log ++ l) ∧ ∀ a ∈ l, a.Logs := by
  refine obeys_sys fun r fds₁ henv => ?_
  rcases henv with ⟨rfl, rfl⟩ | ⟨n, hn, rfl, rfl⟩
  · trivial
  · refine ⟨trivial, ?_⟩
    rintro r ⟨fds₂, log₂⟩ ⟨hfds, hlog⟩
    refine ⟨[⟨.fopen, some n⟩, ⟨.fclose n, r⟩], ?_, by simp [Answer.Logs]⟩
    simp_all [Env, Finset.erase_insert hn]

theorem obeys_olog {α : Type} (olog : Bool) (a : α) :
    (if olog then do
      xmlog
      xmlog
      pure a
    else pure a).Obeys kernel (fds, log) fun b g =>
      b = a ∧ ∃ l, g = (fds, log ++ l) ∧ ∀ a ∈ l, a.Logs := by
  cases olog with
  | false => exact ⟨rfl, [], by simp, by simp⟩
  | true =>
    refine Prog.Obeys.bind (obeys_xmlog.mono ?_)
    rintro - - ⟨l, rfl, hl⟩
    refine Prog.Obeys.bind (obeys_xmlog.mono ?_)
    rintro - - ⟨l', rfl, hl'⟩
    refine ⟨rfl, l ++ l', by simp, fun a ha => ?_⟩
    rcases List.mem_append.mp ha with ha | ha
    · exact hl a ha
    · exact hl' a ha

theorem getresult_fds {fds₁ fds₂ fds₃ fds₄ : Finset ℕ} {r : Option (ℕ × ℕ)} {back_fd : ℤ}
    {ok ok' : Bool}
    (hpipe : Env fds .pipe r fds₁) (hdup : Acquires fds₁ back_fd fds₂)
    (hdup2 : Env fds₂ (.dup2 fd STDOUT_FILENO) ok fds₃)
    (hback : Env fds₃ (.dup2 back_fd STDOUT_FILENO) ok' fds₄) :
    fds₄ = fds ↔ r = none ∧ back_fd = -1 ∧ (STDOUT_FILENO ∈ fds ∨ ok = false ∧ ok' = false) := by
  obtain ⟨h₁, hpipe'⟩ := pipe_subset hpipe
  have h₂ := acquires_subset hdup
  obtain ⟨h₃, hdup2'⟩ := dup2_subset hdup2
  obtain ⟨h₄, hback'⟩ := dup2_subset hback
  constructor
  · rintro rfl
    -- No descriptor is closed, so the sets between are the same too.
    obtain rfl : fds₁ = fds₄ := (h₂.trans (h₃.trans h₄)).antisymm h₁
    obtain rfl : fds₂ = fds₁ := (h₃.trans h₄).antisymm h₂
    obtain rfl : fds₃ = fds₂ := h₄.antisymm h₃
    refine ⟨hpipe'.mp rfl, (acquires_iff hdup).mp rfl, ?_⟩
    rcases hdup2'.mp rfl with hok | hmem
    · exact (hback'.mp rfl).symm.imp_right fun hok' => ⟨hok, hok'⟩
    · exact Or.inl hmem
  · rintro ⟨hr, hfd, hstdout⟩
    obtain rfl := hpipe'.mpr hr
    obtain rfl := (acquires_iff hdup).mpr hfd
    obtain rfl := hdup2'.mpr (hstdout.symm.imp_left And.left)
    exact hback'.mpr (hstdout.symm.imp_left And.right)

theorem exists_append {l : List Answer} {P : Answer → Prop} (hl : ∀ a ∈ l, a.Logs)
    (hP : ∀ a, a.Logs → ¬ P a) : (∃ a ∈ log ++ l, P a) ↔ ∃ a ∈ log, P a := by
  constructor
  · rintro ⟨a, ha, hPa⟩
    rcases List.mem_append.mp ha with ha | ha
    · exact ⟨a, ha, hPa⟩
    · exact absurd hPa (hP a (hl a ha))
  · rintro ⟨a, ha, hPa⟩
    exact ⟨a, List.mem_append_left l ha, hPa⟩

theorem Kind.clean_append {l : List Answer} (k : Kind) (hl : ∀ a ∈ l, a.Logs) :
    k.Clean fds (log ++ l) ↔ k.Clean fds log := by
  have hall : ∀ P : Answer → Prop, (∀ a, a.Logs → ¬ P a) →
      ((∀ a ∈ log ++ l, ¬ P a) ↔ ∀ a ∈ log, ¬ P a) := by
    intro P hP
    have hex : (∃ a ∈ log ++ l, P a) ↔ ∃ a ∈ log, P a := exists_append hl hP
    simpa using not_congr hex
  have hlogs : ∀ a : Answer, a.Logs →
      ¬ a.PipeFails ∧ ¬ a.DupFails ∧ ¬ a.Dup2s ∧ ¬ a.SocketFails ∧ ¬ a.Connects := by
    rintro ⟨c, r⟩ h
    cases c with
    | fopen => exact ⟨id, id, id, id, id⟩
    | fclose fd => exact ⟨id, id, id, id, id⟩
    | _ => exact False.elim h
  cases k with
  | getresult =>
    rw [Clean, Clean, exists_append hl fun a ha => (hlogs a ha).1,
      exists_append hl fun a ha => (hlogs a ha).2.1, hall _ fun a ha => (hlogs a ha).2.2.1]
  | monitor =>
    rw [Clean, Clean, exists_append hl fun a ha => (hlogs a ha).2.2.2.1,
      exists_append hl fun a ha => (hlogs a ha).2.2.2.2]
  | exec => rw [Clean, Clean, exists_append hl fun a ha => (hlogs a ha).2.2.2.1]

theorem obeys_exec :
    exec.Obeys kernel (fds, []) fun _ g => g.1 = fds ↔ Kind.exec.Clean fds g.2 := by
  refine obeys_sys fun sock fds₁ hsock => ?_
  refine obeys_sys fun ok fds₂ hok => ?_
  obtain ⟨-, rfl⟩ := hok
  have hfds := acquires_iff hsock
  cases ok with
  | false => simp [Prog.Obeys, Kind.Clean, Answer.SocketFails, hfds]
  | true =>
    refine obeys_sys fun ok' fds₃ hfds₃ => ?_
    obtain rfl : fds₃ = fds₂ := hfds₃
    cases ok' <;> simp [Prog.Obeys, Kind.Clean, Answer.SocketFails, hfds]

theorem obeys_monitor (olog : Bool) :
    (monitor olog).Obeys kernel (fds, []) fun _ g => g.1 = fds ↔ Kind.monitor.Clean fds g.2 := by
  refine obeys_sys fun sockfd fds₁ hsock => ?_
  refine obeys_same (fun _ _ => id) fun _ => ?_
  refine obeys_sys fun ok fds₂ hok => ?_
  obtain ⟨hopen, rfl⟩ := hok
  cases ok with
  | false =>
    have hfds := acquires_iff hsock
    simp [Prog.Obeys, Kind.Clean, Answer.SocketFails, Answer.Connects, hfds]
  | true =>
    refine obeys_same (fun _ _ => id) fun _ => ?_
    refine obeys_same (fun _ _ => id) fun _ => ?_
    refine obeys_same (fun _ _ => id) fun _ => ?_
    refine obeys_same (fun _ _ => id) fun _ => ?_
    refine obeys_same (fun _ _ => id) fun _ => ?_
    refine obeys_sys fun _ fds₃ hclose => ?_
    obtain rfl : fds₃ = fds₂.filter fun n : ℕ => (n : ℤ) ≠ sockfd := hclose
    -- The socket that is closed is the one that was opened.
    have hfds : (fds₂.filter fun n : ℕ => (n : ℤ) ≠ sockfd) = fds := by
      rcases hsock with ⟨rfl, rfl⟩ | ⟨n, hn, rfl, rfl⟩
      · exact absurd (hopen rfl) not_open_neg
      · rw [Finset.filter_insert, if_neg (by simp), Finset.filter_true_of_mem]
        exact fun m hm he => hn (Int.ofNat_inj.mp he ▸ hm)
    refine (obeys_olog olog true).mono ?_
    rintro - - ⟨-, l, rfl, hl⟩
    rw [Kind.clean_append _ hl]
    simp [Kind.Clean, Answer.SocketFails, Answer.Connects, hfds]

theorem obeys_getresult (olog : Bool) :
    (getresult olog).Obeys kernel (fds, []) fun _ g =>
      g.1 = fds ↔ Kind.getresult.Clean fds g.2 := by
  refine obeys_same (fun _ _ => id) fun fd₀ => ?_
  refine obeys_same (fun _ _ => id) fun fd₁ => ?_
  refine obeys_sys fun r fds₁ hpipe => ?_
  refine obeys_sys fun back_fd fds₂ hdup => ?_
  refine obeys_sys fun ok fds₃ hdup2 => ?_
  refine obeys_same (fun _ _ => id) fun _ => ?_
  refine obeys_same (fun _ _ => id) fun _ => ?_
  refine obeys_same (fun _ _ => id) fun _ => ?_
  refine obeys_same (fun _ _ => id) fun result => ?_
  refine obeys_same (fun _ _ => id) fun _ => ?_
  refine obeys_same (fun _ _ => id) fun _ => ?_
  refine obeys_sys fun ok' fds₄ hback => ?_
  have hfds := getresult_fds hpipe hdup.1 hdup2 hback
  refine (obeys_olog olog (cstr result)).mono ?_
  rintro - - ⟨-, l, rfl, hl⟩
  rw [Kind.clean_append _ hl, hfds]
  simp [Kind.Clean, Answer.PipeFails, Answer.DupFails, Answer.Dup2s]

end Helpers

section Loops

/-- A call of a helper that has returned, with the descriptors before and behind it, and the calls
that it has made. -/
structure HelperCall where
  kind : Kind
  before : Finset ℕ
  log : List Answer
  behind : Finset ℕ

/-- The calls of the helper leave the descriptors as they are. -/
def HelperCall.Clean (c : HelperCall) : Prop := c.kind.Clean c.before c.log

/-- The open descriptors, that of the stream of the tokens, and the calls of the helpers so far. -/
structure World where
  fds : Finset ℕ
  stream : ℕ
  calls : List HelperCall

/-- A helper runs, and returns `r`. -/
def Helps {α : Type} (kind : Kind) (helper : Helper α) (w : World) (r : α) (w' : World) : Prop :=
  ∃ fds log, Prog.Reaches kernel helper (w.fds, []) (.ret r) (fds, log) ∧
    w' = { w with fds, calls := w.calls ++ [⟨kind, w.fds, log, fds⟩] }

/-- What a call of a command does to the descriptors. -/
def Follows (w : World) : (c : Call) → Reply c → World → Prop
  | .getresult _ olog, r, w' => Helps .getresult (getresult olog) w r w'
  | .monitor _ _ olog, r, w' => Helps .monitor (monitor olog) w r w'
  | .exec _, r, w' => Helps .exec exec w r w'
  | .xmlog _, _, w' =>
    ∃ fds log, Prog.Reaches kernel xmlog (w.fds, []) (.ret ()) (fds, log) ∧ w' = { w with fds }
  | .fopen _, _, w' => ∃ n ∉ w.fds, w' = { w with fds := insert n w.fds, stream := n }
  | .fclose, _, w' => w' = { w with fds := w.fds.erase w.stream }
  | _, _, w' => w' = w

/-- The host on which the commands run. -/
def host : Protocol Call Reply World where
  Ok _ _ := True
  Next := Follows

/-- The commands of the source that work on one machine after the other. -/
inductive Loop
  | online
  | status
  | on (buf : List Byte)
  | off
  | halt
  | reset
  | stop
  | continue
  | addVMview

def Loop.prog : Loop → ℕ → CvmProg Unit
  | online => Cvm.online
  | status => ppowerStatus
  | on buf => ppowerOn buf
  | off => ppowerOff
  | halt => ppowerHalt
  | reset => ppowerReset
  | stop => ppowerStop
  | .continue => ppowerContinue
  | addVMview => Cvm.addVMview

/-- A process that has called no helper yet. -/
def World.start (fds : Finset ℕ) : World := ⟨fds, 0, []⟩

/-- The calls that have returned leave the descriptors exactly when their own calls do. -/
def World.Sound (w : World) : Prop := ∀ c ∈ w.calls, c.behind = c.before ↔ c.Clean

variable {w w' : World}

theorem Helps.sound {α : Type} {kind : Kind} {helper : Helper α} {r : α}
    (hhelper : helper.Obeys kernel (w.fds, []) fun _ g => g.1 = w.fds ↔ kind.Clean w.fds g.2)
    (h : Helps kind helper w r w') (hw : w.Sound) : w'.Sound := by
  obtain ⟨fds, log, hr, rfl⟩ := h
  intro c hc
  rcases List.mem_append.mp hc with hc | hc
  · exact hw c hc
  · obtain rfl := List.mem_singleton.mp hc
    exact hhelper.reaches hr

theorem Follows.sound {c : Call} {r : Reply c} (h : Follows w c r w') (hw : w.Sound) :
    w'.Sound := by
  cases c with
  | getresult cmd olog => exact Helps.sound (obeys_getresult olog) h hw
  | monitor id cmd olog => exact Helps.sound (obeys_monitor olog) h hw
  | exec cmd => exact Helps.sound obeys_exec h hw
  | xmlog cmd =>
    obtain ⟨fds, log, -, rfl⟩ := h
    exact hw
  | fopen mode =>
    obtain ⟨n, -, rfl⟩ := h
    exact hw
  | fclose =>
    obtain rfl : w' = { w with fds := w.fds.erase w.stream } := h
    exact hw
  | _ =>
    obtain rfl : w' = w := h
    exact hw

theorem sound_of_reaches {m m' : CvmProg Unit} (h : Prog.Reaches host m w m' w') (hw : w.Sound) :
    w'.Sound := by
  induction h with
  | refl m w => exact hw
  | call hnext _ ih => exact ih (Follows.sound hnext hw)

/-- In every run of a command, a call of a helper leaves the descriptors of the process as they
are if and only if it opens none, or `monitor` reaches its `close`. -/
theorem behind_eq_before_iff (k : Loop) (fuel : ℕ) (fds : Finset ℕ) {m : CvmProg Unit} {w : World}
    (h : Prog.Reaches host (k.prog fuel) (.start fds) m w) :
    ∀ c ∈ w.calls, c.behind = c.before ↔ c.Clean :=
  sound_of_reaches h nofun

theorem reaches_sys {α : Type} {c : Sys} {k : SysReply c → Helper α} {m : Helper α}
    {g : Finset ℕ × List Answer} {fds fds' : Finset ℕ} {log : List Answer} {r : SysReply c}
    (henv : Env fds c r fds')
    (h : Prog.Reaches kernel (k r) (fds', log ++ [⟨c, r⟩]) m g) :
    Prog.Reaches kernel (.call c k) (fds, log) m g :=
  .call ⟨henv, rfl⟩ h

/-- The outcomes of a call of `getresult` in a process with three descriptors. It opens a pipe and
a copy of its output. -/
def openLog : List Answer :=
  [⟨.junk, (0 : ℤ)⟩, ⟨.junk, (0 : ℤ)⟩, ⟨.pipe, some (3, 4)⟩, ⟨.dup 1, (5 : ℤ)⟩, ⟨.dup2 4 1, true⟩,
    ⟨.system, ()⟩, ⟨.getfl 3, 0#32⟩, ⟨.setfl 3 (0#32 ||| O_NONBLOCK), 0#32⟩,
    ⟨.read 3, ([] : List Byte)⟩, ⟨.getfl 3, 0#32⟩,
    ⟨.setfl 3 (0#32 &&& ~~~O_NONBLOCK), 0#32⟩, ⟨.dup2 5 1, true⟩]

/-- The descriptors behind it. -/
def opened : Finset ℕ := insert 1 (insert 1 (insert 5 (insert 3 (insert 4 {0, 1, 2}))))

theorem getresult_reaches :
    Prog.Reaches kernel (getresult false) ({0, 1, 2}, []) (.ret []) (opened, openLog) := by
  refine reaches_sys (r := (0 : ℤ)) rfl ?_
  refine reaches_sys (r := (0 : ℤ)) rfl ?_
  refine reaches_sys (r := some (3, 4))
    (Or.inr ⟨3, by decide, 4, by decide, by decide, rfl, rfl⟩) ?_
  refine reaches_sys (r := (5 : ℤ))
    ⟨Or.inr ⟨5, by decide, rfl, rfl⟩, fun _ => ⟨1, by decide, rfl⟩⟩ ?_
  refine reaches_sys (r := true) (Or.inr ⟨rfl, ⟨4, by decide, rfl⟩, rfl⟩) ?_
  refine reaches_sys (r := ()) rfl ?_
  refine reaches_sys (r := 0#32) rfl ?_
  refine reaches_sys (r := 0#32) rfl ?_
  refine reaches_sys (r := ([] : List Byte)) rfl ?_
  refine reaches_sys (r := 0#32) rfl ?_
  refine reaches_sys (r := 0#32) rfl ?_
  refine reaches_sys (r := true) (Or.inr ⟨rfl, ⟨5, by decide, rfl⟩, rfl⟩) ?_
  exact .refl _ _

/-- The process behind the first call of a helper in `ppower_status`. -/
def asked : World := ⟨opened, 0, [⟨.getresult, {0, 1, 2}, openLog, opened⟩]⟩

/-- A run of `ppower_status` that asks for a machine. -/
theorem status_reaches :
    ∃ m, Prog.Reaches host (Loop.status.prog 1) (.start {0, 1, 2}) m asked := by
  have hjunk : host.Next (.start {0, 1, 2}) .junk (0 : ℤ) (.start {0, 1, 2}) := rfl
  have hscanf : host.Next (.start {0, 1, 2}) .scanf (some (7 : ℤ)) (.start {0, 1, 2}) := rfl
  have hhelps : host.Next (.start {0, 1, 2}) (.getresult (.count 7) false) ([] : List Byte) asked :=
    ⟨opened, openLog, getresult_reaches, rfl⟩
  exact ⟨_, .call hjunk (.call hscanf (.call hhelps (.refl _ _)))⟩

theorem behind_eq_before_asked :
    ∃ m, Prog.Reaches host (Loop.status.prog 1) (.start {0, 1, 2}) m asked ∧
    ∀ c ∈ asked.calls, c.behind = c.before ↔ c.Clean := by
  obtain ⟨m, hr⟩ := status_reaches
  exact ⟨m, hr, behind_eq_before_iff .status 1 {0, 1, 2} hr⟩

theorem status_leaks : ¬ ∀ m w, Prog.Reaches host (Loop.status.prog 1) (.start {0, 1, 2}) m w →
    ∀ c ∈ w.calls, c.behind = c.before := by
  intro h
  obtain ⟨m, hr⟩ := status_reaches
  exact absurd (h m asked hr _ (List.mem_singleton_self _)) (by decide)

end Loops

end Somenote.Cvm.Descriptors
