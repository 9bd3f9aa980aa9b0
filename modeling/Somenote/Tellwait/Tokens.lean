import Somenote.Tellwait.Source

/-! # Messages in the pipes

Each pipe has one process that writes into it and the other one that reads from it. What the one
has written is what the other one has read, and what is still in the pipe.
-/

namespace Somenote.Tellwait.Pipes

namespace Pipe

def writer : Pipe → Party
  | pfd1 => .parent
  | pfd2 => .child

def reader : Pipe → Party
  | pfd1 => .child
  | pfd2 => .parent

def token : Pipe → Char
  | pfd1 => 'p'
  | pfd2 => 'c'

/-- The operation that writes into the pipe. -/
def told : Pipe → Op
  | pfd1 => .tellChild
  | pfd2 => .tellParent

/-- The operation that reads from the pipe. -/
def awaited : Pipe → Op
  | pfd1 => .waitParent
  | pfd2 => .waitChild

theorem writer_ne_reader (fd : Pipe) : fd.reader ≠ fd.writer := by
  cases fd <;> decide

theorem caller_told (fd : Pipe) : fd.told.caller = fd.writer := by
  cases fd <;> rfl

theorem caller_awaited (fd : Pipe) : fd.awaited.caller = fd.reader := by
  cases fd <;> rfl

theorem told_injective : Function.Injective told := by
  intro a b h
  cases a <;> cases b <;> first | rfl | cases h

theorem awaited_injective : Function.Injective awaited := by
  intro a b h
  cases a <;> cases b <;> first | rfl | cases h

theorem awaited_ne_told (fd fd' : Pipe) : fd.awaited ≠ fd'.told := by
  cases fd <;> cases fd' <;> decide

end Pipe

namespace Op

/-- The system call of an operation. -/
def call : Op → Call
  | tellParent => .write .pfd2 ['c']
  | waitParent => .read .pfd1
  | tellChild => .write .pfd1 ['p']
  | waitChild => .read .pfd2

theorem call_injective : Function.Injective call := by
  intro a b h
  cases a <;> cases b <;> first | rfl | cases h

theorem eq_told_or_awaited (op : Op) : ∃ fd : Pipe, op = fd.told ∨ op = fd.awaited := by
  cases op
  · exact ⟨.pfd2, Or.inl rfl⟩
  · exact ⟨.pfd1, Or.inr rfl⟩
  · exact ⟨.pfd1, Or.inl rfl⟩
  · exact ⟨.pfd2, Or.inr rfl⟩

end Op

theorem call_told (fd : Pipe) : fd.told.call = .write fd [fd.token] := by
  cases fd <;> rfl

theorem call_awaited (fd : Pipe) : fd.awaited.call = .read fd := by
  cases fd <;> rfl

theorem body_told (fd : Pipe) : ∃ k : ℤ → TellProg Unit,
    fd.told.body = .call (.write fd [fd.token]) k ∧ k 1 = .ret () := by
  cases fd <;> exact ⟨_, rfl, rfl⟩

theorem body_awaited (fd : Pipe) : ∃ k : Option Char → TellProg Unit,
    fd.awaited.body = .call (.read fd) k ∧ k (some fd.token) = .ret () := by
  cases fd <;> exact ⟨_, rfl, rfl⟩

theorem body_call (op : Op) : ∃ k, op.body = .call op.call k := by
  cases op <;> exact ⟨_, rfl⟩

abbrev Trace := List (Event Party Op Unit Call)

abbrev TellTask := Task Op Unit Call Reply Err Unit Unit

/-- How often an operation has been started, has issued its call, and has returned. -/
def started (op : Op) (tr : Trace) : ℕ := tr.count (.inv op.caller op)

def called (op : Op) (tr : Trace) : ℕ := tr.count (.sys op.caller op.call)

def returned (op : Op) (tr : Trace) : ℕ := tr.count (.ret op.caller op ())

/-- One, when a process is in the operation and in front of its call. -/
def begun (op : Op) : TellTask → ℕ
  | .busy op' _ _ (.call _ _) => if op' = op then 1 else 0
  | _ => 0

/-- One, when a process is in the operation and behind its call. -/
def served (op : Op) : TellTask → ℕ
  | .busy op' _ _ (.ret _) => if op' = op then 1 else 0
  | _ => 0

/-- What holds in every state behind the events `tr`. -/
structure Kept (tr : Trace) (s : Machine) : Prop where
  queue : ∀ fd, ∀ x ∈ s.shared.queue fd, x = (fd.writer, fd.token)
  taken : ∀ x ∈ s.shared.taken, x.1 ≠ x.2
  alive : ∀ p, .die p ∉ tr
  task : ∀ p, (∃ h, s.tasks p = .idle h) ∨ ∃ op h l m, s.tasks p = .busy op h l m ∧
    op.caller = p ∧ (m = op.body ∨ m = .ret ())
  begun : ∀ op, started op tr = called op tr + begun op (s.tasks op.caller)
  served : ∀ op, called op tr = returned op tr + served op (s.tasks op.caller)
  flow : ∀ fd : Pipe,
    called fd.told tr = (s.shared.queue fd).length + called fd.awaited tr

variable {size : ℕ} {tr : Trace} {s t : Machine} {e : Event Party Op Unit Call} {op op' : Op}

section Counts

theorem started_snoc (h : e ≠ .inv op.caller op) : started op (tr ++ [e]) = started op tr := by
  rw [started, List.count_append, List.count_singleton, if_neg (by simpa using h)]
  rfl

theorem called_snoc (h : e ≠ .sys op.caller op.call) : called op (tr ++ [e]) = called op tr := by
  rw [called, List.count_append, List.count_singleton, if_neg (by simpa using h)]
  rfl

theorem called_snoc' (h : op ≠ op') :
    called op' (tr ++ [.sys op.caller op.call]) = called op' tr :=
  called_snoc fun he => h (Op.call_injective (Event.sys.inj he).2)

theorem returned_snoc (h : e ≠ .ret op.caller op ()) : returned op (tr ++ [e]) = returned op tr := by
  rw [returned, List.count_append, List.count_singleton, if_neg (by simpa using h)]
  rfl

theorem started_inv : started op (tr ++ [.inv op.caller op]) = started op tr + 1 := by
  rw [started, List.count_append, List.count_singleton_self]
  rfl

theorem called_sys : called op (tr ++ [.sys op.caller op.call]) = called op tr + 1 := by
  rw [called, List.count_append, List.count_singleton_self]
  rfl

theorem returned_ret : returned op (tr ++ [.ret op.caller op ()]) = returned op tr + 1 := by
  rw [returned, List.count_append, List.count_singleton_self]
  rfl

end Counts

section Stages

variable {x y : TellTask} {d d' : Unit} {l l' : Unit} {m m' : TellProg Unit} {k : Buffers}

theorem begun_other (h : op' ≠ op) : begun op' (.busy op d l m) = 0 := by
  cases m <;> simp [begun, h.symm]

theorem served_other (h : op' ≠ op) : served op' (.busy op d l m) = 0 := by
  cases m <;> simp [served, h.symm]

/-- A step of a process in one operation moves it in no other one. -/
theorem stage_put {f : Op → TellTask → ℕ} (hx : f op' x = 0) (hy : f op' (s.tasks op.caller) = 0) :
    f op' ((s.put op.caller x k).tasks op'.caller) = f op' (s.tasks op'.caller) := by
  by_cases hp : op'.caller = op.caller
  · rw [hp, Conf.put_self, hx, hy]
  · rw [Conf.put_ne hp]

end Stages

theorem kept_initial : Kept [] Machine.initial where
  queue _ _ hx := absurd hx List.not_mem_nil
  taken _ hx := absurd hx List.not_mem_nil
  alive _ := List.not_mem_nil
  task _ := Or.inl ⟨(), rfl⟩
  begun _ := rfl
  served _ := rfl
  flow _ := rfl

theorem Kept.task_put (h : Kept tr s) {x : TellTask} {k : Buffers}
    (hx : (∃ d, x = .idle d) ∨ ∃ d l m, x = .busy op d l m ∧ (m = op.body ∨ m = .ret ())) (p : Party) :
    (∃ d, (s.put op.caller x k).tasks p = .idle d) ∨
      ∃ op' d l m, (s.put op.caller x k).tasks p = .busy op' d l m ∧ op'.caller = p ∧
        (m = op'.body ∨ m = .ret ()) := by
  by_cases hp : p = op.caller
  · subst hp
    rw [Conf.put_self]
    rcases hx with ⟨d, rfl⟩ | ⟨d, l, m, rfl, hm⟩
    · exact Or.inl ⟨d, rfl⟩
    · exact Or.inr ⟨op, d, l, m, rfl, rfl, hm⟩
  · rw [Conf.put_ne hp]
    exact h.task p

theorem Kept.busy (h : Kept tr s) {p : Party} {d l : Unit} {m : TellProg Unit}
    (ht : s.tasks p = .busy op d l m) : op.caller = p ∧ (m = op.body ∨ m = .ret ()) := by
  rcases h.task p with ⟨d', hd⟩ | ⟨op', d', l', m', htask, hcaller, hm⟩
  · rw [ht] at hd
    cases hd
  · rw [ht] at htask
    cases htask
    exact ⟨hcaller, hm⟩

theorem Kept.inv (h : Kept tr s) {d : Unit} (ht : s.tasks op.caller = .idle d) :
    Kept (tr ++ [.inv op.caller op]) (s.put op.caller (.busy op d () op.body) s.shared) where
  queue := h.queue
  taken := h.taken
  alive p := by simpa using h.alive p
  task := h.task_put (Or.inr ⟨d, (), op.body, rfl, Or.inl rfl⟩)
  begun op' := by
    have h₀ := h.begun op'
    rw [called_snoc (by simp)]
    by_cases hop : op' = op
    · subst hop
      rw [ht] at h₀
      obtain ⟨k, hk⟩ := body_call op'
      rw [started_inv, Conf.put_self, hk, h₀]
      simp [Pipes.begun]
    · rw [started_snoc (by simp [Ne.symm hop]), h₀,
        stage_put (f := Pipes.begun) (begun_other hop) (by rw [ht]; rfl)]
  served op' := by
    rw [called_snoc (by simp), returned_snoc (by simp), h.served op']
    by_cases hop : op' = op
    · subst hop
      obtain ⟨k, hk⟩ := body_call op'
      rw [ht, Conf.put_self, hk]
      rfl
    · rw [stage_put (f := Pipes.served) (served_other hop) (by rw [ht]; rfl)]
  flow fd := by
    rw [called_snoc (by simp), called_snoc (by simp)]
    exact h.flow fd

theorem Kept.ret (h : Kept tr s) {d l u : Unit} (ht : s.tasks op.caller = .busy op d l (.ret u)) :
    Kept (tr ++ [.ret op.caller op ()]) (s.put op.caller (.idle ()) s.shared) where
  queue := h.queue
  taken := h.taken
  alive p := by simpa using h.alive p
  task := h.task_put (Or.inl ⟨(), rfl⟩)
  begun op' := by
    rw [started_snoc (by simp), called_snoc (by simp), h.begun op']
    by_cases hop : op' = op
    · subst hop
      rw [ht, Conf.put_self]
      rfl
    · rw [stage_put (f := Pipes.begun) rfl (by rw [ht]; exact begun_other hop)]
  served op' := by
    have h₀ := h.served op'
    rw [called_snoc (by simp)]
    by_cases hop : op' = op
    · subst hop
      rw [ht] at h₀
      rw [returned_ret, Conf.put_self, h₀]
      simp [Pipes.served]
    · rw [returned_snoc (by simp [Ne.symm hop]), h₀,
        stage_put (f := Pipes.served) rfl (by rw [ht]; exact served_other hop)]
  flow fd := by
    rw [called_snoc (by simp), called_snoc (by simp)]
    exact h.flow fd

/-- The call of an operation, which leaves the operation to return. -/
theorem Kept.sys (h : Kept tr s) {d l : Unit} {k : Buffers}
    (ht : s.tasks op.caller = .busy op d l op.body)
    (hqueue : ∀ fd, ∀ x ∈ k.queue fd, x = (fd.writer, fd.token))
    (htaken : ∀ x ∈ k.taken, x.1 ≠ x.2)
    (hflow : ∀ fd : Pipe, called fd.told (tr ++ [.sys op.caller op.call]) =
      (k.queue fd).length + called fd.awaited (tr ++ [.sys op.caller op.call])) :
    Kept (tr ++ [.sys op.caller op.call]) (s.put op.caller (.busy op d l (.ret ())) k) where
  queue := hqueue
  taken := htaken
  alive p := by simpa using h.alive p
  task := h.task_put (Or.inr ⟨d, l, .ret (), rfl, Or.inr rfl⟩)
  begun op' := by
    have h₀ := h.begun op'
    rw [started_snoc (by simp), h₀]
    by_cases hop : op' = op
    · subst hop
      obtain ⟨m, hm⟩ := body_call op'
      rw [called_sys, ht, hm, Conf.put_self]
      simp [Pipes.begun]
    · rw [called_snoc' (Ne.symm hop),
        stage_put (f := Pipes.begun) (begun_other hop) (by rw [ht]; exact begun_other hop)]
  served op' := by
    have h₀ := h.served op'
    rw [returned_snoc (by simp)]
    by_cases hop : op' = op
    · subst hop
      obtain ⟨m, hm⟩ := body_call op'
      rw [ht, hm] at h₀
      rw [called_sys, Conf.put_self, h₀]
      simp [Pipes.served]
    · rw [called_snoc' (Ne.symm hop), h₀,
        stage_put (f := Pipes.served) (served_other hop) (by rw [ht]; exact served_other hop)]
  flow := hflow

theorem Kept.tell (h : Kept tr s) {fd : Pipe} {d l : Unit}
    (ht : s.tasks fd.told.caller = .busy fd.told d l fd.told.body) :
    Kept (tr ++ [.sys fd.told.caller fd.told.call])
      (s.put fd.told.caller (.busy fd.told d l (.ret ())) { s.shared with
        queue := Function.update s.shared.queue fd
          (s.shared.queue fd ++ [(fd.told.caller, fd.token)]) }) := by
  apply h.sys ht
  · intro fd' x hx
    dsimp only at hx
    by_cases hfd : fd' = fd
    · subst hfd
      rw [Function.update_self] at hx
      rcases List.mem_append.mp hx with hx | hx
      · exact h.queue fd' x hx
      · rw [List.mem_singleton.mp hx, fd'.caller_told]
    · rw [Function.update_of_ne hfd] at hx
      exact h.queue fd' x hx
  · exact h.taken
  · intro fd'
    dsimp only
    have h₀ := h.flow fd'
    have hne : fd'.awaited ≠ fd.told := fd'.awaited_ne_told fd
    rw [called_snoc' hne.symm]
    by_cases hfd : fd' = fd
    · subst hfd
      rw [called_sys, Function.update_self, List.length_append, h₀]
      simp only [List.length_singleton]
      omega
    · have hne' : fd.told ≠ fd'.told := fun h' => hfd (Pipe.told_injective h').symm
      rw [called_snoc' hne', Function.update_of_ne hfd, h₀]

theorem Kept.await (h : Kept tr s) {fd : Pipe} {d l : Unit} {x : Party × Char}
    {rest : List (Party × Char)} (hfd : s.shared.queue fd = x :: rest)
    (ht : s.tasks fd.awaited.caller = .busy fd.awaited d l fd.awaited.body) :
    Kept (tr ++ [.sys fd.awaited.caller fd.awaited.call])
      (s.put fd.awaited.caller (.busy fd.awaited d l (.ret ()))
        { queue := Function.update s.shared.queue fd rest
          taken := s.shared.taken ++ [(fd.awaited.caller, x.1)] }) := by
  have hx : x = (fd.writer, fd.token) := h.queue fd x (by simp [hfd])
  apply h.sys ht
  · intro fd' y hy
    dsimp only at hy
    by_cases hfd' : fd' = fd
    · subst hfd'
      rw [Function.update_self] at hy
      exact h.queue fd' y (by simp [hfd, hy])
    · rw [Function.update_of_ne hfd'] at hy
      exact h.queue fd' y hy
  · intro y hy
    rcases List.mem_append.mp hy with hy | hy
    · exact h.taken y hy
    · rw [List.mem_singleton.mp hy, hx, fd.caller_awaited]
      exact fd.writer_ne_reader
  · intro fd'
    dsimp only
    have h₀ := h.flow fd'
    have hne : fd.awaited ≠ fd'.told := fd.awaited_ne_told fd'
    rw [called_snoc' hne, h₀]
    by_cases hfd' : fd' = fd
    · subst hfd'
      rw [called_sys, Function.update_self, hfd, List.length_cons]
      omega
    · have hne' : fd.awaited ≠ fd'.awaited := fun h' => hfd' (Pipe.awaited_injective h').symm
      rw [called_snoc' hne', Function.update_of_ne hfd']

theorem Step.kept (hs : Step (kernel size) talkers s e t) (h : Kept tr s)
    (hown : ∀ p op, e = .inv p op → op.caller = p) : Kept (tr ++ [e]) t := by
  cases hs with
  | @inv p op d ht hc =>
    obtain rfl : op.caller = p := hown p op rfl
    exact h.inv ht
  | @sys p op d l c k ht hr =>
    obtain ⟨hcaller, hbody⟩ := h.busy ht
    subst hcaller
    have hm : Prog.call c k = op.body := hbody.resolve_right nofun
    obtain ⟨fd, rfl | rfl⟩ := op.eq_told_or_awaited
    · obtain ⟨k', hk, hret⟩ := body_told fd
      rw [hm] at ht
      rw [hk] at hm
      cases hm
      have hkept := h.tell ht
      rw [call_told] at hkept
      rw [← hret] at hkept
      exact hkept
    · obtain ⟨k', hk, hret⟩ := body_awaited fd
      rw [hm] at ht
      rw [hk] at hm
      cases hm
      cases hq : s.shared.queue fd with
      | nil => exact absurd hq hr
      | cons x rest =>
        have hkept := h.await hq ht
        have hx : x = (fd.writer, fd.token) := h.queue fd x (by simp [hq])
        subst hx
        rw [call_awaited] at hkept
        simp only [kernel, hq, hret]
        exact hkept
  | @ret p op d l u ht =>
    obtain ⟨hcaller, -⟩ := h.busy ht
    subst hcaller
    exact h.ret ht
  | @die p op d l e ht =>
    obtain ⟨-, hbody⟩ := h.busy ht
    obtain ⟨k, hk⟩ := body_call op
    rw [hk] at hbody
    rcases hbody with hbody | hbody <;> cases hbody

theorem Run.kept (hr : Run (kernel size) talkers Machine.initial tr s)
    (hown : ∀ p op, .inv p op ∈ tr → op.caller = p) : Kept tr s := by
  induction hr with
  | nil => exact kept_initial
  | snoc _ hs ih =>
    have h := ih fun p op hp => hown p op (List.mem_append_left _ hp)
    exact Step.kept hs h fun p op he => hown p op (by simp [he])

section Waits

variable (hr : Run (kernel size) talkers Machine.initial tr s)
  (hown : ∀ p op, .inv p op ∈ tr → op.caller = p)
include hr hown

/-- The wait that returns is behind its tell. -/
theorem Run.tell_first (fd : Pipe) {u v : Trace}
    (htr : tr = u ++ .ret fd.awaited.caller fd.awaited () :: v) :
    returned fd.awaited u + 1 ≤ called fd.told u ∧ returned fd.awaited u + 1 ≤ started fd.told u := by
  rw [List.append_cons] at htr
  obtain ⟨t, ht, -⟩ := hr.cut htr
  have hkept := Run.kept ht fun p op hp => hown p op (htr ▸ List.mem_append_left v hp)
  have hserved := hkept.served fd.awaited
  have hflow := hkept.flow fd
  have hbegun := hkept.begun fd.told
  rw [called_snoc (by simp), returned_ret] at hserved
  rw [called_snoc (by simp), called_snoc (by simp)] at hflow
  rw [started_snoc (by simp), called_snoc (by simp)] at hbegun
  omega

/-- Each wait that returns is behind its tell, no wait finds other data, and nobody reads what it
has written. -/
theorem handshake :
    (∀ u v, tr = u ++ .ret .parent .waitChild () :: v →
      returned .waitChild u + 1 ≤ called .tellParent u ∧
        returned .waitChild u + 1 ≤ started .tellParent u) ∧
    (∀ u v, tr = u ++ .ret .child .waitParent () :: v →
      returned .waitParent u + 1 ≤ called .tellChild u ∧
        returned .waitParent u + 1 ≤ started .tellChild u) ∧
    (∀ p, .die p ∉ tr) ∧ (∀ p op d l e, s.tasks p ≠ .busy op d l (.dump e)) ∧
    ∀ x ∈ s.shared.taken, x.1 ≠ x.2 := by
  have hkept := Run.kept hr hown
  constructor
  · intro u v htr
    exact Run.tell_first hr hown .pfd2 htr
  constructor
  · intro u v htr
    exact Run.tell_first hr hown .pfd1 htr
  constructor
  · exact hkept.alive
  constructor
  · intro p op d l e ht
    obtain ⟨-, hm⟩ := hkept.busy ht
    obtain ⟨k, hk⟩ := body_call op
    rw [hk] at hm
    rcases hm with hm | hm <;> cases hm
  · exact hkept.taken

end Waits

/-- The parent tells the child, which waits for it. -/
def told : Trace :=
  [.inv .parent .tellChild, .sys .parent (.write .pfd1 ['p']), .ret .parent .tellChild (),
    .inv .child .waitParent, .sys .child (.read .pfd1), .ret .child .waitParent ()]

theorem run_told : ∃ s, Run (kernel 1) talkers Machine.initial told s :=
  ⟨_, .snoc (.snoc (.snoc (.snoc (.snoc (.snoc .nil (.inv rfl trivial))
    (.sys rfl (Nat.le_refl 1))) (.ret rfl)) (.inv rfl trivial))
    (.sys rfl (List.cons_ne_nil _ _))) (.ret rfl)⟩

theorem handshake_told : ∃ s, Run (kernel 1) talkers Machine.initial told s ∧
    (returned .waitParent (told.take 5) + 1 ≤ called .tellChild (told.take 5)) ∧
    ∀ x ∈ s.shared.taken, x.1 ≠ x.2 := by
  obtain ⟨s, hs⟩ := run_told
  have hown : ∀ p op, .inv p op ∈ told → op.caller = p := by
    intro p op hp
    simp [told] at hp
    rcases hp with ⟨rfl, rfl⟩ | ⟨rfl, rfl⟩ <;> rfl
  obtain ⟨-, hchild, -, -, htaken⟩ := handshake hs hown
  exact ⟨s, hs, (hchild (told.take 5) [] rfl).1, htaken⟩

end Somenote.Tellwait.Pipes
