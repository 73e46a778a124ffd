import Xv6.Core.Proc

/-!
# The Ways Through the Text

What a process does when it goes on, as a relation with one case for each way through the
text of `kernel/proc.c`: where the process was, what it found, and the state it leaves. The
invariants of the process table are all proved by cases on it, so the branches of the machine
are taken apart here and nowhere else.

## Theorems

* `Ptable.did_of_go`, `Ptable.running_eq`
-/

namespace Xv6.Ptable

variable {P C : Type} [DecidableEq P] {T : Table P} {s s' : Sys P C} {c : C}
  {p q : P}

@[simp] theorem proc_edit (f : Entry P C → Entry P C) (r : P) :
    (s.edit q f).proc r = if r = q then f (s.proc q) else s.proc r := by
  simp only [Sys.edit, Function.update_apply]

omit [DecidableEq P] in
theorem running_eq (h : s.running c = some p) : s.cpu c = .thread p ∧ s.ctx p = .on := by
  unfold Sys.running at h
  split at h
  · split_ifs at h with hon
    cases h
    exact ⟨by assumption, hon⟩
  · cases h

/-- What the process `p` on cpu `c` may do when it goes on, one case for each way through the
    text. -/
inductive Did (T : Table P) (s : Sys P C) (c : C) (p : P) : Sys P C → Prop
  | wakeDone {n : Nat} (hpc : s.pc p = .waking n []) : Did T s c p (s.goto p .run)
  | wakeSelf {n : Nat} {todo : List P} (hpc : s.pc p = .waking n (p :: todo)) :
      Did T s c p (s.goto p (.waking n todo))
  | wake {n : Nat} {q : P} {todo : List P} (hpc : s.pc p = .waking n (q :: todo)) (hne : q ≠ p)
      (hl : (s.proc q).lock = none) :
      Did T s c p ((s.edit q (Entry.wakeup (some (.other n)))).goto p (.waking n todo))
  | killNone {pid : Int} (hpc : s.pc p = .killing pid []) : Did T s c p (s.ret p (-1))
  | killSkip {pid : Int} {q : P} {todo : List P} (hpc : s.pc p = .killing pid (q :: todo))
      (hpid : (s.proc q).pid ≠ pid) : Did T s c p (s.goto p (.killing pid todo))
  | kill {pid : Int} {q : P} {todo : List P} (hpc : s.pc p = .killing pid (q :: todo))
      (hl : (s.proc q).lock = none) (hpid : (s.proc q).pid = pid) :
      Did T s c p
        { (s.edit q Entry.kill).ret p 0 with asked := Function.update s.asked q true }
  | allocNone (hpc : s.pc p = .allocproc []) : Did T s c p (s.ret p (-1))
  | allocSkip {q : P} {todo : List P} (hpc : s.pc p = .allocproc (q :: todo)) :
      Did T s c p (s.goto p (.allocproc todo))
  | alloc {q : P} {todo : List P} (hpc : s.pc p = .allocproc (q :: todo))
      (hl : (s.proc q).lock = none) (hu : (s.proc q).state = .UNUSED) :
      Did T s c p ((s.reserve c q).goto p (.forking q))
  | copied {np : P} (hpc : s.pc p = .forking np) : Did T s c p (s.copyMem p np true)
  | abandon {np : P} (hpc : s.pc p = .forking np) : Did T s c p (s.copyMem p np false)
  | adopt {np : P} {pid : Int} (hpc : s.pc p = .adopt np pid) (hw : s.waitLock = none) :
      Did T s c p ((s.edit np fun e => { e with parent := some p }).goto p (.launch np pid))
  | launch {np : P} {pid : Int} (hpc : s.pc p = .launch np pid) (hl : (s.proc np).lock = none) :
      Did T s c p ((s.edit np fun e => { e with state := .RUNNABLE }).ret p pid)
  | exitLock {status : Int} (hpc : s.pc p = .exiting status) (hw : s.waitLock = none) :
      Did T s c p { s.goto p (.reparent status T.procs) with waitLock := some p }
  | reparentDone {status : Int} (hpc : s.pc p = .reparent status []) :
      Did T s c p (s.goto p (.wakeParent status T.procs))
  | reparentSkip {status : Int} {q : P} {todo : List P}
      (hpc : s.pc p = .reparent status (q :: todo)) (hpar : (s.proc q).parent ≠ some p) :
      Did T s c p (s.goto p (.reparent status todo))
  | handOver {status : Int} {q : P} {todo : List P}
      (hpc : s.pc p = .reparent status (q :: todo)) (hpar : (s.proc q).parent = some p) :
      Did T s c p ((s.edit q fun e => { e with parent := some T.initproc }).goto p
        (.wakeInit status T.procs todo))
  | wakeInitDone {status : Int} {rest : List P} (hpc : s.pc p = .wakeInit status [] rest) :
      Did T s c p (s.goto p (.reparent status rest))
  | wakeInitSelf {status : Int} {todo rest : List P}
      (hpc : s.pc p = .wakeInit status (p :: todo) rest) :
      Did T s c p (s.goto p (.wakeInit status todo rest))
  | wakeInit {status : Int} {q : P} {todo rest : List P}
      (hpc : s.pc p = .wakeInit status (q :: todo) rest) (hne : q ≠ p)
      (hl : (s.proc q).lock = none) :
      Did T s c p ((s.edit q (Entry.wakeup (some (.proc T.initproc)))).goto p
        (.wakeInit status todo rest))
  | wakeParentDone {status : Int} (hpc : s.pc p = .wakeParent status []) :
      Did T s c p (s.goto p (.zombie status))
  | wakeParentSelf {status : Int} {todo : List P} (hpc : s.pc p = .wakeParent status (p :: todo)) :
      Did T s c p (s.goto p (.wakeParent status todo))
  | wakeParent {status : Int} {q : P} {todo : List P}
      (hpc : s.pc p = .wakeParent status (q :: todo)) (hne : q ≠ p)
      (hl : (s.proc q).lock = none) :
      Did T s c p ((s.edit q (Entry.wakeup ((s.proc p).parent.map .proc))).goto p
        (.wakeParent status todo))
  | die {status : Int} (hpc : s.pc p = .zombie status) (hl : (s.proc p).lock = none) :
      Did T s c p (s.die c p status)
  | waitLock {addr : StatusAddr} (hpc : s.pc p = .waiting addr) (hw : s.waitLock = none) :
      Did T s c p { s.goto p (.scan addr T.procs false) with waitLock := some p }
  | scanSkip {addr : StatusAddr} {q : P} {todo : List P} {havekids : Bool}
      (hpc : s.pc p = .scan addr (q :: todo) havekids) (hpar : (s.proc q).parent ≠ some p) :
      Did T s c p (s.goto p (.scan addr todo havekids))
  | scanKid {addr : StatusAddr} {q : P} {todo : List P} {havekids : Bool}
      (hpc : s.pc p = .scan addr (q :: todo) havekids) (hpar : (s.proc q).parent = some p)
      (hz : (s.proc q).state ≠ .ZOMBIE) : Did T s c p (s.goto p (.scan addr todo true))
  | copyoutFails {q : P} {todo : List P} {havekids : Bool}
      (hpc : s.pc p = .scan .bad (q :: todo) havekids) (hpar : (s.proc q).parent = some p)
      (hz : (s.proc q).state = .ZOMBIE) : Did T s c p { s.ret p (-1) with waitLock := none }
  | reap {addr : StatusAddr} {q : P} {todo : List P} {havekids : Bool}
      (hpc : s.pc p = .scan addr (q :: todo) havekids) (haddr : addr ≠ .bad)
      (hpar : (s.proc q).parent = some p) (hl : (s.proc q).lock = none)
      (hz : (s.proc q).state = .ZOMBIE) : Did T s c p (s.reap p q)
  | noKids {addr : StatusAddr} {havekids : Bool} (hpc : s.pc p = .scan addr [] havekids) :
      Did T s c p { s.ret p (-1) with waitLock := none }
  | sleepWait {addr : StatusAddr} {havekids : Bool} (hpc : s.pc p = .scan addr [] havekids)
      (hl : (s.proc p).lock = none) :
      Did T s c p { (s.giveUp c p
        (fun e => { e with chan := some (.proc p), state := .SLEEPING }) true).goto p
        (.waiting addr) with waitLock := none }

theorem did_of_go {mem : Bool} (hs : s.go T c p mem = some s') : Did T s c p s' := by
  unfold Sys.go at hs
  split at hs
  case h_1 | h_19 => cases hs
  case h_2 hpc =>
    cases hs
    exact .wakeDone hpc
  case h_3 hpc =>
    unfold Sys.wakeOne at hs
    split_ifs at hs with hqp hl
    · subst hqp
      cases hs
      exact .wakeSelf hpc
    · cases hs
      exact .wake hpc hqp hl
  case h_4 hpc =>
    cases hs
    exact .killNone hpc
  case h_5 hpc =>
    unfold Sys.killOne at hs
    split_ifs at hs with hl hpid
    · cases hs
      exact .kill hpc hl hpid
    · cases hs
      exact .killSkip hpc hpid
  case h_6 hpc =>
    cases hs
    exact .allocNone hpc
  case h_7 hpc =>
    unfold Sys.allocOne at hs
    split_ifs at hs with hl hu
    · cases hs
      exact .alloc hpc hl hu
    · cases hs
      exact .allocSkip hpc
  case h_8 hpc =>
    cases hs
    cases mem with
    | true => exact .copied hpc
    | false => exact .abandon hpc
  case h_9 hpc =>
    split_ifs at hs with hw
    cases hs
    exact .adopt hpc hw
  case h_10 hpc =>
    split_ifs at hs with hl
    cases hs
    exact .launch hpc hl
  case h_11 hpc =>
    split_ifs at hs with hw
    cases hs
    exact .exitLock hpc hw
  case h_12 hpc =>
    cases hs
    exact .reparentDone hpc
  case h_13 hpc =>
    cases hs
    unfold Sys.reparentOne
    split_ifs with hpar
    · exact .handOver hpc hpar
    · exact .reparentSkip hpc hpar
  case h_14 hpc =>
    cases hs
    exact .wakeInitDone hpc
  case h_15 hpc =>
    unfold Sys.wakeOne at hs
    split_ifs at hs with hqp hl
    · subst hqp
      cases hs
      exact .wakeInitSelf hpc
    · cases hs
      exact .wakeInit hpc hqp hl
  case h_16 hpc =>
    cases hs
    exact .wakeParentDone hpc
  case h_17 hpc =>
    unfold Sys.wakeOne at hs
    split_ifs at hs with hqp hl
    · subst hqp
      cases hs
      exact .wakeParentSelf hpc
    · cases hs
      exact .wakeParent hpc hqp hl
  case h_18 hpc =>
    split_ifs at hs with hl
    cases hs
    exact .die hpc hl
  case h_20 hpc =>
    split_ifs at hs with hw
    cases hs
    exact .waitLock hpc hw
  case h_21 hpc =>
    unfold Sys.scanEnd at hs
    split_ifs at hs with hk hl
    · cases hs
      exact .noKids hpc
    · cases hs
      exact .sleepWait hpc hl
  case h_22 hpc =>
    unfold Sys.scanOne at hs
    split_ifs at hs with hpar hl hz haddr
    · subst haddr
      cases hs
      exact .copyoutFails hpc hpar hz
    · cases hs
      exact .reap hpc haddr hpar hl hz
    · cases hs
      exact .scanKid hpc hpar hz
    · cases hs
      exact .scanSkip hpc hpar

end Xv6.Ptable
