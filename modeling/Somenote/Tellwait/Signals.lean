import Mathlib.Logic.Function.Basic
import Mathlib.Data.Nat.Notation
import Somenote.Tellwait.Source

/-! # Telling and waiting with signals

The functions of `sigproc.c`. A tell sends a signal, and a wait tests a flag that the handler of
the signal sets, and suspends the process while the flag is clear. A signal is delivered at any
time while it is pending and not blocked.
-/

namespace Somenote.Tellwait

def Party.other : Party → Party
  | parent => child
  | child => parent

namespace Signals

inductive Sig | usr1 | usr2
  deriving DecidableEq, Repr

abbrev SigSet := Sig → Bool

/-- Where a process is: outside of both waits, or in front of a statement of one. -/
inductive Pc
  | outside | test | suspend | asleep | reset | setmask
  deriving DecidableEq, Repr

/-- A process, and how many of its tells, of the deliveries to it and of its waits are over. -/
structure Proc where
  pc : Pc
  sigflag : Bool
  mask : SigSet
  oldmask : SigSet
  /-- The mask behind `sigsuspend`. -/
  restore : SigSet
  pending : SigSet
  told : ℕ
  delivered : ℕ
  waited : ℕ

def zeromask : SigSet := fun _ => false

def newmask : SigSet := fun _ => true

/-- A process with the mask `mask` behind `TELL_WAIT`. -/
def tellWait (mask : SigSet) : Proc where
  pc := .outside
  sigflag := false
  mask := fun sig => mask sig || newmask sig
  oldmask := mask
  restore := mask
  pending := zeromask
  told := 0
  delivered := 0
  waited := 0

namespace Proc

/-- The handler of both signals. -/
def sigUsr (x : Proc) : Proc := { x with sigflag := true }

/-- A pending signal runs its handler, and `sigsuspend` returns behind it. -/
def deliver (x : Proc) (sig : Sig) : Proc :=
  let x := { x.sigUsr with
    pending := Function.update x.pending sig false, delivered := x.delivered + 1 }
  if x.pc = .asleep then { x with pc := .test, mask := x.restore } else x

end Proc

/-- The steps of a process in `WAIT_PARENT` and `WAIT_CHILD`, and the delivery of a signal. -/
inductive Move
  | wait | test | suspend | reset | setmask
  | deliver (sig : Sig)
  deriving DecidableEq, Repr

def Proc.step (x : Proc) : Move → Option Proc
  | .wait => if x.pc = .outside then some { x with pc := .test } else none
  | .test =>
    if x.pc = .test then some { x with pc := if x.sigflag = false then .suspend else .reset }
    else none
  | .suspend =>
    if x.pc = .suspend then some { x with pc := .asleep, restore := x.mask, mask := zeromask }
    else none
  | .reset => if x.pc = .reset then some { x with pc := .setmask, sigflag := false } else none
  | .setmask =>
    if x.pc = .setmask then
      some { x with pc := .outside, mask := x.oldmask, waited := x.waited + 1 }
    else none
  | .deliver sig => if x.pending sig ∧ x.mask sig = false then some (x.deliver sig) else none

abbrev World := Party → Proc

def World.initial (mask : SigSet) : World := fun _ => tellWait mask

def kill (s : World) (p : Party) (sig : Sig) : World :=
  Function.update s p { s p with pending := Function.update (s p).pending sig true }

def tellParent (s : World) : World := kill s .parent .usr2

def tellChild (s : World) : World := kill s .child .usr1

/-- The tell of a process, to the other one. -/
def tell : Party → World → World
  | .child => tellParent
  | .parent => tellChild

inductive Act
  | tell (p : Party)
  | move (p : Party) (m : Move)
  deriving DecidableEq, Repr

def step (s : World) : Act → Option World
  | .tell p =>
    if (s p).pc = .outside then
      some (tell p (Function.update s p { s p with told := (s p).told + 1 }))
    else none
  | .move p m => ((s p).step m).map (Function.update s p)

/-- The states that steps under the condition `C` lead to. -/
inductive Reach (mask : SigSet) (C : World → Act → Prop) : World → Prop
  | initial : Reach mask C (World.initial mask)
  | step {s t a} (h : Reach mask C s) (hc : C s a) (hs : step s a = some t) : Reach mask C t

/-- The two processes take turns. The process `first` tells and then waits, again and again, and
the other one waits and then tells. -/
def Turns (first : Party) (s : World) : Act → Prop
  | .tell p =>
    if p = first then (s p).told = (s p).waited else (s p).waited = (s p).told + 1
  | .move p .wait =>
    if p = first then (s p).told = (s p).waited + 1 else (s p).waited = (s p).told
  | .move _ _ => True

/-- A process tells when the other one has waited for what it told before. -/
def Spaced (s : World) : Act → Prop
  | .tell p => (s p).told = (s p.other).waited
  | .move _ _ => True

/-- No signal is delivered between the test of the flag and `sigsuspend`. -/
def Prompt (s : World) : Act → Prop
  | .move p (.deliver _) => (s p).pc ≠ .suspend
  | _ => True

end Signals

end Somenote.Tellwait
