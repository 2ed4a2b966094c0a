import Mathlib.Algebra.BigOperators.Fin
import Mathlib.Algebra.Order.BigOperators.Group.Finset
import Mathlib.Data.Fin.VecNotation

/-!
Starting and stopping threads with a stop condition.

The condition of `wg_thread.c` is a flag with a mutex and a condition variable.  The
threads of a tunnel and of a relay look at it once in each round of their loops, and the
keepalive thread also waits on it.  Every call that takes the mutex is a step of its own
here, waits may end for any reason, and a thread may be refused by the system.  Whatever
the order of the steps, no thread outlives its tunnel, none leaves early, and once the
flag is set the call that joins the threads returns.
-/

namespace WgNx.StopCondition

section Model

/-- The loops of the threads: those of `recv_thread_func` and `relay_thread_func` check the
condition, that of `keepalive_thread_func` waits on it as well. -/
inductive Loop where
  | polls
  | waits
  deriving DecidableEq

/-- How a call of `pthread_cond_timedwait` ends; `woken` without a signal too. -/
inductive Ending where
  | woken
  | timedOut
  | failed
  deriving DecidableEq

/-- Where a thread is: in `wg_stop_cond_check`, in `wg_stop_cond_timedwait` or in the rest of its
loop. -/
inductive Thread where
  | absent
  | checkLock
  | checkRead
  | checkUnlock (result : Bool)
  | waitLock
  | waitTest
  | waiting
  | waking (r : Ending)
  | waitUnlock (r : Ending)
  | work
  | exited
  deriving DecidableEq

/-- What a step does to the mutex. -/
inductive Effect where
  | none
  | lock
  | unlock

/-- The next place of a thread; `ending` is used where a wait ends.  The rest of a round, with its
wait for a datagram, its sends and the callback, is the one step `work`, which is assumed to
return. -/
def Thread.next (loop : Loop) (pred : Bool) (ending : Ending) : Thread → Option (Effect × Thread)
  | .absent => none
  | .checkLock => some (.lock, .checkRead)
  | .checkRead => some (.none, .checkUnlock pred)
  | .checkUnlock true => some (.unlock, .exited)
  | .checkUnlock false => some (.unlock, match loop with
      | .polls => .work
      | .waits => .waitLock)
  | .waitLock => some (.lock, .waitTest)
  | .waitTest =>
      -- The loop condition of `wg_stop_cond_timedwait`; a failed wait keeps the mutex.
      if pred then some (.none, .waitUnlock .woken)
      else if ending = .failed then some (.none, .waitUnlock .failed)
      else some (.unlock, .waiting)
  | .waiting => some (.none, .waking ending)
  | .waking .woken => some (.lock, .waitTest)
  | .waking r => some (.lock, .waitUnlock r)
  | .waitUnlock .woken => some (.unlock, .exited)
  | .waitUnlock _ => some (.unlock, .work)
  | .work => some (.none, .checkLock)
  | .exited => none

/-- Where the caller is: outside, in `wg_start` or `wg_relay_start`, in `wg_stop_cond_signal` or
joining.  `n` threads were created, `k` of them are joined. -/
inductive Caller where
  | idle
  | reset
  | create (k : ℕ)
  | signalLock (n : ℕ)
  | signalSet (n : ℕ)
  | signalUnlock (n : ℕ)
  | broadcast (n : ℕ)
  | join (n k : ℕ)
  deriving DecidableEq

inductive Party (m : ℕ) where
  | caller
  | thread (i : Fin m)
  deriving DecidableEq

structure State (m : ℕ) where
  caller : Caller
  threads : Fin m → Thread
  holder : Option (Party m)
  pred : Bool
  running : Bool

/-- Nothing was started; `wg_stop_cond_init` clears the flag. -/
def initial (m : ℕ) : State m := ⟨.idle, fun _ => .absent, none, false, false⟩

/-- `created` is whether `wg_thread_create` succeeds in this step. -/
inductive Action (m : ℕ) where
  | start
  | stop
  | caller (created : Bool)
  | thread (i : Fin m) (ending : Ending)

variable {m : ℕ}

def State.move (s : State m) (i : Fin m) (t : Thread) : State m :=
  { s with threads := Function.update s.threads i t }

def threadStep (loops : Fin m → Loop) (s : State m) (i : Fin m) (ending : Ending) :
    Option (State m) :=
  match (s.threads i).next (loops i) s.pred ending with
  | none => none
  | some (.none, t) => some (s.move i t)
  | some (.lock, t) =>
      if s.holder = none then some { s.move i t with holder := some (.thread i) } else none
  | some (.unlock, t) => some { s.move i t with holder := none }

/-- `wg_cond_broadcast` -/
def woken : Thread → Thread
  | .waiting => .waking .woken
  | t => t

def callerStep (s : State m) (created : Bool) : Option (State m) :=
  match s.caller with
  | .idle => none
  | .reset => some { s with pred := false, caller := .create 0 }
  | .create k =>
      if h : k < m then
        if created then some { s.move ⟨k, h⟩ .checkLock with caller := .create (k + 1) }
        else if k = 0 then some { s with caller := .idle }
        else some { s with caller := .signalLock k }
      else some { s with running := true, caller := .idle }
  | .signalLock n =>
      if s.holder = none then some { s with holder := some .caller, caller := .signalSet n }
      else none
  | .signalSet n => some { s with pred := true, caller := .signalUnlock n }
  | .signalUnlock n => some { s with holder := none, caller := .broadcast n }
  | .broadcast n => some { s with threads := fun i => woken (s.threads i), caller := .join n 0 }
  | .join n k =>
      if h : k < n ∧ k < m then
        if s.threads ⟨k, h.2⟩ = .exited then
          some { s.move ⟨k, h.2⟩ .absent with caller := .join n (k + 1) }
        else none
      else some { s with running := false, caller := .idle }

/-- A call that finds the tunnel running, or not running, changes nothing. -/
def step (loops : Fin m → Loop) (s : State m) : Action m → Option (State m)
  | .start =>
      if s.caller = .idle then some (if s.running then s else { s with caller := .reset })
      else none
  | .stop =>
      if s.caller = .idle then some (if s.running then { s with caller := .signalLock m } else s)
      else none
  | .caller created => callerStep s created
  | .thread i ending => threadStep loops s i ending

def run (loops : Fin m → Loop) (s : State m) (actions : List (Action m)) : Option (State m) :=
  actions.foldlM (step loops) s

/-- `wg_start` creates the receive thread and the keepalive thread. -/
def tunnelLoops : Fin 2 → Loop := ![.polls, .waits]

end Model

section Threads

/-- The thread has the mutex. -/
def Thread.critical : Thread → Bool
  | .checkRead | .checkUnlock _ | .waitTest | .waitUnlock _ => true
  | _ => false

/-- The thread has seen the flag. -/
def Thread.leaving : Thread → Bool
  | .checkUnlock true | .waitUnlock .woken | .exited => true
  | _ => false

/-- A bound on the steps of a thread once the flag is set. -/
def Thread.rank : Thread → ℕ
  | .absent | .exited => 0
  | .checkUnlock true | .waitUnlock .woken => 1
  | .checkRead | .waitTest => 2
  | .checkLock | .waitLock => 3
  | .work => 4
  | .checkUnlock false | .waitUnlock _ => 5
  | .waking _ => 6
  | .waiting => 7

theorem Thread.rank_le (t : Thread) : t.rank ≤ 7 := by
  unfold Thread.rank
  split <;> decide

/-- Everything a step of a thread can do, by its effect on the mutex. -/
structure NextSpec (pred : Bool) (t : Thread) (e : Effect) (t' : Thread) : Prop where
  present : t ≠ .absent ∧ t' ≠ .absent
  holds : match e with
    | .none => t.critical = t'.critical
    | .lock => t.critical = false ∧ t'.critical = true
    | .unlock => t.critical = true ∧ t'.critical = false
  leaving : t'.leaving = true → t.leaving = true ∨ pred = true
  waiting : t' = .waiting → pred = false
  rank : pred = true → t'.rank < t.rank

theorem Thread.next_spec {loop : Loop} {pred : Bool} {ending : Ending} {t t' : Thread} {e : Effect}
    (h : t.next loop pred ending = some (e, t')) : NextSpec pred t e t' := by
  cases t with
  | absent => cases h
  | exited => cases h
  | checkRead =>
      cases h
      cases pred <;> constructor <;> simp [critical, leaving, rank]
  | checkUnlock result =>
      cases result with
      | true =>
          cases h
          constructor <;> simp [critical, leaving, rank]
      | false =>
          cases loop <;> cases h <;> constructor <;> simp [critical, leaving, rank]
  | waitTest =>
      simp only [Thread.next] at h
      split at h
      · cases h
        constructor <;> simp_all [critical, leaving, rank]
      · split at h <;> cases h <;> constructor <;> simp_all [critical, leaving, rank]
  | waking r => cases r <;> cases h <;> constructor <;> simp [critical, leaving, rank]
  | waitUnlock r => cases r <;> cases h <;> constructor <;> simp [critical, leaving, rank]
  | checkLock | waitLock | waiting | work =>
      cases h
      constructor <;> simp [critical, leaving, rank]

theorem Thread.next_isSome (loop : Loop) (pred : Bool) (ending : Ending) {t : Thread}
    (habsent : t ≠ .absent) (hexited : t ≠ .exited) :
    ∃ e t', t.next loop pred ending = some (e, t') := by
  cases t with
  | absent => exact absurd rfl habsent
  | exited => exact absurd rfl hexited
  | checkUnlock result => cases result <;> exact ⟨_, _, rfl⟩
  | waitTest =>
      simp only [Thread.next]
      split_ifs <;> exact ⟨_, _, rfl⟩
  | waking r => cases r <;> exact ⟨_, _, rfl⟩
  | waitUnlock r => cases r <;> exact ⟨_, _, rfl⟩
  | checkLock | checkRead | waitLock | waiting | work => exact ⟨_, _, rfl⟩

end Threads

section Invariant

variable {m : ℕ} {loops : Fin m → Loop} {s s' : State m}

def Caller.critical : Caller → Bool
  | .signalSet _ | .signalUnlock _ => true
  | _ => false

/-- The flag is set and the threads are not yet joined. -/
def Caller.signalled : Caller → Bool
  | .signalUnlock _ | .broadcast _ | .join _ _ => true
  | _ => false

/-- The threads run and the flag is not set. -/
def Caller.serving (running : Bool) : Caller → Bool
  | .create _ | .signalLock _ | .signalSet _ => true
  | .idle => running
  | _ => false

/-- The threads that exist. -/
def Caller.owns (running : Bool) (i : ℕ) : Caller → Prop
  | .idle => running = true
  | .reset => False
  | .create k => i < k
  | .signalLock n | .signalSet n | .signalUnlock n | .broadcast n => i < n
  | .join n k => k ≤ i ∧ i < n

def Caller.bounded (m : ℕ) : Caller → Prop
  | .idle | .reset => True
  | .create k => k ≤ m
  | .signalLock n | .signalSet n | .signalUnlock n | .broadcast n => n ≤ m
  | .join n k => k ≤ n ∧ n ≤ m

def Caller.starting : Caller → Bool
  | .reset | .create _ => true
  | _ => false

structure Inv (s : State m) : Prop where
  holds : ∀ i, s.holder = some (.thread i) ↔ (s.threads i).critical = true
  callerHolds : s.holder = some .caller ↔ s.caller.critical = true
  present : ∀ i : Fin m, s.threads i ≠ .absent ↔ s.caller.owns s.running i
  bounded : s.caller.bounded m
  cleared : s.caller.serving s.running = true → s.pred = false
  set : s.caller.signalled = true → s.pred = true
  leaving : ∀ i, (s.threads i).leaving = true → s.pred = true
  joining : ∀ n k, s.caller = .join n k → ∀ i, s.threads i ≠ .waiting
  fresh : s.caller.starting = true → s.running = false

theorem inv_initial (m : ℕ) : Inv (initial m) := by
  constructor <;> simp [initial, Thread.critical, Thread.leaving, Caller.critical, Caller.owns,
    Caller.bounded, Caller.serving, Caller.signalled, Caller.starting]

/-- The three kinds of thread steps. -/
theorem threadStep_cases {i : Fin m} {ending : Ending} (h : threadStep loops s i ending = some s') :
    ∃ e t, NextSpec s.pred (s.threads i) e t ∧
      match e with
      | .none => s' = s.move i t
      | .lock => s.holder = none ∧ s' = { s.move i t with holder := some (.thread i) }
      | .unlock => s' = { s.move i t with holder := none } := by
  unfold threadStep at h
  split at h
  · cases h
  · rename_i t hnext
    exact ⟨.none, t, Thread.next_spec hnext, (Option.some.inj h).symm⟩
  · rename_i t hnext
    split at h
    · rename_i hfree
      exact ⟨.lock, t, Thread.next_spec hnext, hfree, (Option.some.inj h).symm⟩
    · cases h
  · rename_i t hnext
    exact ⟨.unlock, t, Thread.next_spec hnext, (Option.some.inj h).symm⟩

/-- A thread that moves keeps everything but who has the mutex. -/
theorem Inv.of_thread (hs : Inv s) {i : Fin m} {e : Effect} {t : Thread}
    (hnext : NextSpec s.pred (s.threads i) e t) {holder : Option (Party m)}
    (hholds : ∀ j, holder = some (.thread j) ↔ (Function.update s.threads i t j).critical = true)
    (hcaller : holder = some .caller ↔ s.caller.critical = true) :
    Inv { s.move i t with holder := holder } where
  holds := hholds
  callerHolds := hcaller
  present := by
    intro j
    change Function.update s.threads i t j ≠ .absent ↔ s.caller.owns s.running j
    rw [← hs.present j]
    by_cases hj : j = i
    · subst hj
      simp [hnext.present]
    · simp [hj]
  bounded := hs.bounded
  cleared := hs.cleared
  set := hs.set
  leaving := by
    intro j
    change (Function.update s.threads i t j).leaving = true → s.pred = true
    by_cases hj : j = i
    · subst hj
      rw [Function.update_self]
      intro hleaving
      exact (hnext.leaving hleaving).elim (hs.leaving j) id
    · rw [Function.update_of_ne hj]
      exact hs.leaving j
  joining := by
    intro n k hjoin j
    change Function.update s.threads i t j ≠ .waiting
    by_cases hj : j = i
    · subst hj
      rw [Function.update_self]
      intro hwaiting
      have hpred := hs.set (by rw [show s.caller = .join n k from hjoin]; rfl)
      rw [hnext.waiting hwaiting] at hpred
      cases hpred
    · rw [Function.update_of_ne hj]
      exact hs.joining n k hjoin j
  fresh := hs.fresh

theorem Inv.threadStep (hs : Inv s) {i : Fin m} {ending : Ending}
    (h : threadStep loops s i ending = some s') : Inv s' := by
  obtain ⟨e, t, hnext, hcases⟩ := threadStep_cases h
  have hholds := hnext.holds
  cases e with
  | none =>
      subst hcases
      refine hs.of_thread hnext (fun j => ?_) hs.callerHolds
      rw [hs.holds j]
      by_cases hj : j = i
      · subst hj
        rw [Function.update_self, hholds]
      · rw [Function.update_of_ne hj]
  | lock =>
      obtain ⟨hfree, rfl⟩ := hcases
      refine hs.of_thread hnext (fun j => ?_) ?_
      · by_cases hj : j = i
        · subst hj
          simp [hholds.2]
        · have hother := hs.holds j
          simp [hfree] at hother
          simp [hj, Ne.symm hj, hother]
      · have hcaller := hs.callerHolds
        simp [hfree] at hcaller
        simp [hcaller]
  | unlock =>
      subst hcases
      have hmine := (hs.holds i).mpr hholds.1
      refine hs.of_thread hnext (fun j => ?_) ?_
      · by_cases hj : j = i
        · subst hj
          simp [hholds.2]
        · have hother := hs.holds j
          simp [hmine, Ne.symm hj] at hother
          simp [hj, hother]
      · have hcaller := hs.callerHolds
        simp [hmine] at hcaller
        simp [hcaller]

/-- A caller that moves without touching the threads, the flag or the mutex. -/
theorem Inv.of_caller (hs : Inv s) {c : Caller} {running : Bool}
    (hcritical : s.caller.critical = c.critical)
    (howns : ∀ i : Fin m, s.caller.owns s.running i ↔ c.owns running i)
    (hbounded : c.bounded m) (hcleared : c.serving running = true → s.pred = false)
    (hset : c.signalled = true → s.pred = true)
    (hjoining : ∀ n k, c = .join n k → ∀ i, s.threads i ≠ .waiting)
    (hfresh : c.starting = true → running = false) :
    Inv { s with caller := c, running := running } where
  holds := hs.holds
  callerHolds := hs.callerHolds.trans (by rw [hcritical])
  present := fun i => (hs.present i).trans (howns i)
  bounded := hbounded
  cleared := hcleared
  set := hset
  leaving := hs.leaving
  joining := hjoining
  fresh := hfresh

theorem absent_of_not_owns (hs : Inv s) {i : Fin m} (h : ¬s.caller.owns s.running i) :
    s.threads i = .absent := by
  by_contra hthread
  exact h ((hs.present i).mp hthread)

/-- Without threads the flag may be cleared. -/
theorem Inv.reset (hs : Inv s) (hc : s.caller = .reset) :
    Inv { s with pred := false, caller := .create 0 } := by
  have habsent : ∀ i, s.threads i = .absent := fun i =>
    absent_of_not_owns hs (by simp [hc, Caller.owns])
  have hcaller := hs.callerHolds
  have hrunning := hs.fresh (by simp [hc, Caller.starting])
  rw [hc] at hcaller
  exact {
    holds := hs.holds
    callerHolds := hcaller
    present := fun i => by simp [habsent i, Caller.owns]
    bounded := Nat.zero_le m
    cleared := fun _ => rfl
    set := fun h => by cases h
    leaving := fun i h => by simp [habsent i, Thread.leaving] at h
    joining := fun n k h => by cases h
    fresh := fun _ => hrunning }

theorem Inv.created (hs : Inv s) {k : ℕ} (hc : s.caller = .create k) (hk : k < m) :
    Inv { s.move ⟨k, hk⟩ .checkLock with caller := .create (k + 1) } := by
  have habsent : s.threads ⟨k, hk⟩ = .absent :=
    absent_of_not_owns hs (by simp [hc, Caller.owns])
  have hcaller := hs.callerHolds
  have hpresent := hs.present
  have hrunning := hs.fresh (by simp [hc, Caller.starting])
  have hcleared := hs.cleared (by simp [hc, Caller.serving])
  rw [hc] at hcaller hpresent
  exact {
    holds := fun i => by
      by_cases hi : i = ⟨k, hk⟩
      · have hbefore := hs.holds i
        rw [hi, habsent] at hbefore
        simpa [State.move, hi, Thread.critical] using hbefore
      · simpa [State.move, hi] using hs.holds i
    callerHolds := hcaller
    present := fun i => by
      by_cases hi : i = ⟨k, hk⟩
      · simp [State.move, hi, Caller.owns]
      · have hne : (i : ℕ) ≠ k := fun h => hi (Fin.ext h)
        have hbefore := hpresent i
        simp only [State.move, Function.update_of_ne hi, Caller.owns] at hbefore ⊢
        rw [hbefore]
        omega
    bounded := hk
    cleared := fun _ => hcleared
    set := fun h => by cases h
    leaving := fun i h => by
      by_cases hi : i = ⟨k, hk⟩
      · simp [State.move, hi, Thread.leaving] at h
      · exact hs.leaving i (by simpa [State.move, hi] using h)
    joining := fun n j h => by cases h
    fresh := fun _ => hrunning }

theorem Inv.signalLock (hs : Inv s) {n : ℕ} (hc : s.caller = .signalLock n)
    (hfree : s.holder = none) :
    Inv { s with holder := some .caller, caller := .signalSet n } := by
  have hpresent := hs.present
  have hbounded := hs.bounded
  have hcleared := hs.cleared (by simp [hc, Caller.serving])
  rw [hc] at hpresent hbounded
  exact {
    holds := fun i => by
      have hbefore := hs.holds i
      simpa [hfree] using hbefore
    callerHolds := by simp [Caller.critical]
    present := hpresent
    bounded := hbounded
    cleared := fun _ => hcleared
    set := fun h => by cases h
    leaving := hs.leaving
    joining := fun n k h => by cases h
    fresh := fun h => by cases h }

theorem Inv.signalSet (hs : Inv s) {n : ℕ} (hc : s.caller = .signalSet n) :
    Inv { s with pred := true, caller := .signalUnlock n } := by
  have hcaller := hs.callerHolds
  have hpresent := hs.present
  have hbounded := hs.bounded
  rw [hc] at hcaller hpresent hbounded
  exact {
    holds := hs.holds
    callerHolds := hcaller
    present := hpresent
    bounded := hbounded
    cleared := fun h => by cases h
    set := fun _ => rfl
    leaving := fun _ _ => rfl
    joining := fun n k h => by cases h
    fresh := fun h => by cases h }

theorem Inv.signalUnlock (hs : Inv s) {n : ℕ} (hc : s.caller = .signalUnlock n) :
    Inv { s with holder := none, caller := .broadcast n } := by
  have hmine := hs.callerHolds.mpr (by simp [hc, Caller.critical])
  have hpresent := hs.present
  have hbounded := hs.bounded
  have hset := hs.set (by simp [hc, Caller.signalled])
  rw [hc] at hpresent hbounded
  exact {
    holds := fun i => by
      have hbefore := hs.holds i
      simpa [hmine] using hbefore
    callerHolds := by simp [Caller.critical]
    present := hpresent
    bounded := hbounded
    cleared := fun h => by cases h
    set := fun _ => hset
    leaving := hs.leaving
    joining := fun n k h => by cases h
    fresh := fun h => by cases h }

theorem woken_spec (t : Thread) :
    (woken t).critical = t.critical ∧ (woken t).leaving = t.leaving ∧
      (woken t ≠ .absent ↔ t ≠ .absent) ∧ woken t ≠ .waiting ∧ (woken t).rank ≤ t.rank := by
  cases t <;> simp [woken, Thread.critical, Thread.leaving, Thread.rank]

theorem Inv.broadcast (hs : Inv s) {n : ℕ} (hc : s.caller = .broadcast n) :
    Inv { s with threads := fun i => woken (s.threads i), caller := .join n 0 } := by
  have hcaller := hs.callerHolds
  have hpresent := hs.present
  have hbounded := hs.bounded
  have hset := hs.set (by simp [hc, Caller.signalled])
  rw [hc] at hcaller hpresent hbounded
  exact {
    holds := fun i => by
      rw [(woken_spec _).1]
      exact hs.holds i
    callerHolds := hcaller
    present := fun i => by
      rw [(woken_spec _).2.2.1, hpresent i]
      simp [Caller.owns]
    bounded := ⟨Nat.zero_le n, hbounded⟩
    cleared := fun h => by cases h
    set := fun _ => hset
    leaving := fun _ _ => hset
    joining := fun _ _ _ i => (woken_spec _).2.2.2.1
    fresh := fun h => by cases h }

theorem Inv.joined (hs : Inv s) {n k : ℕ} (hc : s.caller = .join n k) (hk : k < n ∧ k < m)
    (hexited : s.threads ⟨k, hk.2⟩ = .exited) :
    Inv { s.move ⟨k, hk.2⟩ .absent with caller := .join n (k + 1) } := by
  have hcaller := hs.callerHolds
  have hpresent := hs.present
  have hbounded := hs.bounded
  have hset := hs.set (by simp [hc, Caller.signalled])
  have hjoining := hs.joining n k hc
  rw [hc] at hcaller hpresent hbounded
  exact {
    holds := fun i => by
      by_cases hi : i = ⟨k, hk.2⟩
      · have hbefore := hs.holds i
        rw [hi, hexited] at hbefore
        simpa [State.move, hi, Thread.critical] using hbefore
      · simpa [State.move, hi] using hs.holds i
    callerHolds := hcaller
    present := fun i => by
      by_cases hi : i = ⟨k, hk.2⟩
      · simp [State.move, hi, Caller.owns]
      · have hne : (i : ℕ) ≠ k := fun h => hi (Fin.ext h)
        have hbefore := hpresent i
        simp only [State.move, Function.update_of_ne hi, Caller.owns] at hbefore ⊢
        rw [hbefore]
        omega
    bounded := ⟨hk.1, hbounded.2⟩
    cleared := fun h => by cases h
    set := fun _ => hset
    leaving := fun _ _ => hset
    joining := fun _ _ _ i => by
      by_cases hi : i = ⟨k, hk.2⟩
      · simp [State.move, hi]
      · simpa [State.move, hi] using hjoining i
    fresh := fun h => by cases h }

/-- The first thread was refused. -/
theorem Inv.refused (hs : Inv s) (hc : s.caller = .create 0) :
    Inv { s with caller := .idle } := by
  have hrunning := hs.fresh (by simp [hc, Caller.starting])
  refine hs.of_caller (by rw [hc]; rfl) (fun i => ?_) trivial ?_ ?_ ?_ ?_ <;>
    simp [hc, Caller.owns, Caller.serving, Caller.signalled, Caller.starting, hrunning]

/-- A later thread was refused, and those before it have to be stopped. -/
theorem Inv.abandoned (hs : Inv s) {k : ℕ} (hc : s.caller = .create k) :
    Inv { s with caller := .signalLock k } := by
  have hbounded := hs.bounded
  have hcleared := hs.cleared (by simp [hc, Caller.serving])
  rw [hc] at hbounded
  refine hs.of_caller (by rw [hc]; rfl) (fun i => ?_) hbounded (fun _ => hcleared) ?_ ?_ ?_ <;>
    simp [hc, Caller.owns, Caller.signalled, Caller.starting]

theorem Inv.started (hs : Inv s) {k : ℕ} (hc : s.caller = .create k) (hk : ¬k < m) :
    Inv { s with running := true, caller := .idle } := by
  have hcleared := hs.cleared (by simp [hc, Caller.serving])
  refine hs.of_caller (by rw [hc]; rfl) (fun i => ?_) trivial (fun _ => hcleared) ?_ ?_ ?_
  · have := i.isLt
    simp only [hc, Caller.owns, iff_true]
    omega
  all_goals simp [Caller.signalled, Caller.starting]

theorem Inv.returned (hs : Inv s) {n k : ℕ} (hc : s.caller = .join n k) (hk : ¬(k < n ∧ k < m)) :
    Inv { s with running := false, caller := .idle } := by
  have hbounded := hs.bounded
  rw [hc] at hbounded
  obtain ⟨hkn, hnm⟩ := hbounded
  refine hs.of_caller (by rw [hc]; rfl) (fun i => ?_) trivial ?_ ?_ ?_ ?_
  · have := i.isLt
    simp only [hc, Caller.owns, Bool.false_eq_true, iff_false]
    omega
  all_goals simp [Caller.serving, Caller.signalled, Caller.starting]

theorem Inv.callerStep (hs : Inv s) {created : Bool} (h : callerStep s created = some s') :
    Inv s' := by
  cases hc : s.caller with
  | idle => simp [StopCondition.callerStep, hc] at h
  | reset =>
      simp only [StopCondition.callerStep, hc] at h
      cases h
      exact hs.reset hc
  | create k =>
      simp only [StopCondition.callerStep, hc] at h
      split at h
      · rename_i hk
        split at h
        · cases h
          exact hs.created hc hk
        · split at h <;> cases h
          · rename_i hzero
            exact hs.refused (hzero ▸ hc)
          · exact hs.abandoned hc
      · rename_i hk
        cases h
        exact hs.started hc hk
  | signalLock n =>
      simp only [StopCondition.callerStep, hc] at h
      split at h
      · rename_i hfree
        cases h
        exact hs.signalLock hc hfree
      · cases h
  | signalSet n =>
      simp only [StopCondition.callerStep, hc] at h
      cases h
      exact hs.signalSet hc
  | signalUnlock n =>
      simp only [StopCondition.callerStep, hc] at h
      cases h
      exact hs.signalUnlock hc
  | broadcast n =>
      simp only [StopCondition.callerStep, hc] at h
      cases h
      exact hs.broadcast hc
  | join n k =>
      simp only [StopCondition.callerStep, hc] at h
      split at h
      · rename_i hk
        split at h
        · rename_i hexited
          cases h
          exact hs.joined hc hk hexited
        · cases h
      · rename_i hk
        cases h
        exact hs.returned hc hk

theorem Inv.step (hs : Inv s) {a : Action m} (h : step loops s a = some s') : Inv s' := by
  cases a with
  | start =>
      simp only [StopCondition.step] at h
      split at h
      · rename_i hc
        cases h
        split
        · exact hs
        · rename_i hrunning
          refine hs.of_caller (by rw [hc]; rfl) (fun i => ?_) trivial ?_ ?_ ?_ ?_ <;>
            simp [hc, Caller.owns, Caller.serving, Caller.signalled, hrunning]
      · cases h
  | stop =>
      simp only [StopCondition.step] at h
      split at h
      · rename_i hc
        cases h
        split
        · rename_i hrunning
          have hcleared := hs.cleared (by rw [hc]; exact hrunning)
          refine hs.of_caller (by rw [hc]; rfl) (fun i => ?_) (Nat.le_refl m)
            (fun _ => hcleared) ?_ ?_ ?_ <;>
            simp [hc, Caller.owns, Caller.signalled, Caller.starting, hrunning]
        · exact hs
      · cases h
  | caller created => exact hs.callerStep h
  | thread i ending => exact hs.threadStep h

theorem run_cons {a : Action m} {actions : List (Action m)}
    (h : run loops s (a :: actions) = some s') :
    ∃ mid, step loops s a = some mid ∧ run loops mid actions = some s' := by
  unfold run at h
  rw [List.foldlM_cons] at h
  exact Option.bind_eq_some_iff.mp h

theorem Inv.run (hs : Inv s) {actions : List (Action m)} (h : run loops s actions = some s') :
    Inv s' := by
  induction actions generalizing s with
  | nil =>
      cases h
      exact hs
  | cons a actions ih =>
      obtain ⟨mid, hstep, hrest⟩ := run_cons h
      exact ih (hs.step hstep) hrest

end Invariant

section Progress

variable {m : ℕ} {loops : Fin m → Loop} {s s' : State m}

theorem step_of_critical {i : Fin m} (h : (s.threads i).critical = true) :
    ∃ s', step loops s (.thread i .woken) = some s' := by
  have habsent : s.threads i ≠ .absent := fun heq => by simp [heq, Thread.critical] at h
  have hexited : s.threads i ≠ .exited := fun heq => by simp [heq, Thread.critical] at h
  obtain ⟨e, t, hnext⟩ := Thread.next_isSome (loops i) s.pred .woken habsent hexited
  have hspec := Thread.next_spec hnext
  simp only [step, threadStep, hnext]
  cases e with
  | none => exact ⟨_, rfl⟩
  | lock =>
      have hfree := hspec.holds.1
      rw [h] at hfree
      cases hfree
  | unlock => exact ⟨_, rfl⟩

/-- Who waits for the mutex waits for a thread that can go on. -/
theorem step_of_holder (hs : Inv s) (hcaller : s.caller.critical = false)
    (hheld : s.holder ≠ none) : ∃ a s', step loops s a = some s' := by
  match hholder : s.holder with
  | none => exact absurd hholder hheld
  | some .caller =>
      rw [hs.callerHolds.mp hholder] at hcaller
      cases hcaller
  | some (.thread i) => exact ⟨_, step_of_critical ((hs.holds i).mp hholder)⟩

theorem step_of_thread (hs : Inv s) (hcaller : s.caller.critical = false) {i : Fin m}
    (habsent : s.threads i ≠ .absent) (hexited : s.threads i ≠ .exited) :
    ∃ a s', step loops s a = some s' := by
  by_cases hfree : s.holder = none
  · obtain ⟨e, t, hnext⟩ := Thread.next_isSome (loops i) s.pred .woken habsent hexited
    refine ⟨.thread i .woken, ?_⟩
    simp only [step, threadStep, hnext]
    cases e with
    | none => exact ⟨_, rfl⟩
    | lock => exact ⟨_, if_pos hfree⟩
    | unlock => exact ⟨_, rfl⟩
  · exact step_of_holder hs hcaller hfree

/-- No call is ever stuck. -/
theorem step_enabled (hs : Inv s) (hidle : s.caller ≠ .idle) :
    ∃ a s', step loops s a = some s' := by
  cases hc : s.caller with
  | idle => exact absurd hc hidle
  | signalLock n =>
      by_cases hfree : s.holder = none
      · exact ⟨.caller true, _, by simp [step, callerStep, hc, hfree]; rfl⟩
      · exact step_of_holder hs (by rw [hc]; rfl) hfree
  | join n k =>
      by_cases hk : k < n ∧ k < m
      · by_cases hexited : s.threads ⟨k, hk.2⟩ = .exited
        · exact ⟨.caller true, _, by simp [step, callerStep, hc, hk, hexited]; rfl⟩
        · refine step_of_thread hs (by rw [hc]; rfl) ((hs.present ⟨k, hk.2⟩).mpr ?_) hexited
          rw [hc]
          exact ⟨Nat.le_refl k, hk.1⟩
      · exact ⟨.caller true, _, by simp only [step, callerStep, hc, dif_neg hk]; rfl⟩
  | create k =>
      by_cases hk : k < m
      · exact ⟨.caller true, _, by simp [step, callerStep, hc, hk]; rfl⟩
      · exact ⟨.caller true, _, by simp [step, callerStep, hc, hk]; rfl⟩
  | _ => exact ⟨.caller true, _, by simp only [step, callerStep, hc]; rfl⟩

def Caller.rank : Caller → ℕ
  | .signalUnlock n => n + 3
  | .broadcast n => n + 2
  | .join n k => n - k + 1
  | _ => 0

/-- A bound on the steps of everyone once the flag is set. -/
def stepsLeft (s : State m) : ℕ := ∑ i, (s.threads i).rank + s.caller.rank

/-- The call is over: nothing runs any more. -/
def Returned (s : State m) : Prop :=
  s.caller = .idle ∧ s.running = false ∧ ∀ i, s.threads i = .absent

theorem stepsLeft_le (hs : Inv s) (hset : s.caller.signalled = true) : stepsLeft s ≤ 8 * m + 3 := by
  have hthreads : ∑ i, (s.threads i).rank ≤ ∑ _i : Fin m, 7 :=
    Finset.sum_le_sum fun i _ => (s.threads i).rank_le
  have hcaller : s.caller.rank ≤ m + 3 := by
    have hbounded := hs.bounded
    cases hc : s.caller <;> rw [hc] at hbounded hset <;>
      simp only [Caller.rank, Caller.bounded, Caller.signalled, Bool.false_eq_true] at * <;> omega
  unfold stepsLeft
  simp only [Finset.sum_const, Finset.card_univ, Fintype.card_fin, smul_eq_mul] at hthreads
  omega

theorem stepsLeft_move {i : Fin m} {t : Thread} (h : t.rank < (s.threads i).rank) :
    ∑ j, (Function.update s.threads i t j).rank < ∑ j, (s.threads j).rank := by
  refine Finset.sum_lt_sum (fun j _ => ?_) ⟨i, Finset.mem_univ i, by simpa using h⟩
  by_cases hj : j = i
  · subst hj
    simpa using h.le
  · simp [hj]

theorem stepsLeft_threadStep (hs : Inv s) (hset : s.caller.signalled = true) {i : Fin m}
    {ending : Ending} (h : threadStep loops s i ending = some s') :
    stepsLeft s' < stepsLeft s ∧ s'.caller.signalled = true := by
  obtain ⟨e, t, hnext, hcases⟩ := threadStep_cases h
  have hlt := stepsLeft_move (hnext.rank (hs.set hset))
  cases e with
  | none =>
      subst hcases
      exact ⟨Nat.add_lt_add_right hlt _, hset⟩
  | lock =>
      obtain ⟨-, rfl⟩ := hcases
      exact ⟨Nat.add_lt_add_right hlt _, hset⟩
  | unlock =>
      subst hcases
      exact ⟨Nat.add_lt_add_right hlt _, hset⟩

theorem stepsLeft_callerStep (hs : Inv s) (hset : s.caller.signalled = true) {created : Bool}
    (h : callerStep s created = some s') :
    stepsLeft s' < stepsLeft s ∧ (s'.caller.signalled = true ∨ Returned s') := by
  have hs' := hs.callerStep h
  cases hc : s.caller with
  | signalUnlock n =>
      simp only [callerStep, hc] at h
      cases h
      simp [stepsLeft, hc, Caller.rank, Caller.signalled]
  | broadcast n =>
      simp only [callerStep, hc] at h
      cases h
      have hle : ∑ i, (woken (s.threads i)).rank ≤ ∑ i, (s.threads i).rank :=
        Finset.sum_le_sum fun i _ => (woken_spec _).2.2.2.2
      simp only [stepsLeft, hc, Caller.rank, Caller.signalled, true_or, and_true]
      omega
  | join n k =>
      simp only [callerStep, hc] at h
      split at h
      · rename_i hk
        split at h
        · rename_i hexited
          cases h
          have hsame : ∑ j, (Function.update s.threads ⟨k, hk.2⟩ .absent j).rank =
              ∑ j, (s.threads j).rank := by
            refine Finset.sum_congr rfl fun j _ => ?_
            by_cases hj : j = ⟨k, hk.2⟩
            · rw [hj, Function.update_self, hexited]
              rfl
            · rw [Function.update_of_ne hj]
          simp only [stepsLeft, State.move, hsame, hc, Caller.rank, Caller.signalled, true_or,
            and_true]
          omega
        · cases h
      · cases h
        refine ⟨?_, .inr ⟨rfl, rfl, fun i => absent_of_not_owns hs' (by simp [Caller.owns])⟩⟩
        simp only [stepsLeft, hc, Caller.rank]
        omega
  | _ => simp [hc, Caller.signalled] at hset

/-- Once the flag is set every step of everyone leads towards the end of the call. -/
theorem stepsLeft_step (hs : Inv s) (hset : s.caller.signalled = true) {a : Action m}
    (h : step loops s a = some s') :
    stepsLeft s' < stepsLeft s ∧ (s'.caller.signalled = true ∨ Returned s') := by
  have hidle : s.caller ≠ .idle := fun hc => by simp [hc, Caller.signalled] at hset
  cases a with
  | start => simp [step, hidle] at h
  | stop => simp [step, hidle] at h
  | caller created => exact stepsLeft_callerStep hs hset h
  | thread i ending =>
      obtain ⟨hlt, hstill⟩ := stepsLeft_threadStep hs hset h
      exact ⟨hlt, .inl hstill⟩

/-- The call has returned, or it is at most `stepsLeft` steps away from it. -/
theorem returned_or_left (hs : Inv s) (hset : s.caller.signalled = true)
    {actions : List (Action m)} (h : run loops s actions = some s') :
    (∃ before after mid, actions = before ++ after ∧ run loops s before = some mid ∧ Returned mid) ∨
      s'.caller.signalled = true ∧ actions.length + stepsLeft s' ≤ stepsLeft s := by
  induction actions generalizing s with
  | nil =>
      cases h
      exact .inr ⟨hset, by simp⟩
  | cons a actions ih =>
      obtain ⟨mid, hstep, hrest⟩ := run_cons h
      obtain ⟨hlt, hnext⟩ := stepsLeft_step hs hset hstep
      rcases hnext with hset' | hreturned
      · rcases ih (hs.step hstep) hset' hrest with
          ⟨before, after, t, rfl, hbefore, ht⟩ | ⟨hend, hle⟩
        · refine .inl ⟨a :: before, after, t, rfl, ?_, ht⟩
          unfold run
          rw [List.foldlM_cons, hstep]
          exact hbefore
        · refine .inr ⟨hend, ?_⟩
          rw [List.length_cons]
          omega
      · refine .inl ⟨[a], actions, mid, rfl, ?_, hreturned⟩
        unfold run
        rw [List.foldlM_cons, hstep]
        rfl

end Progress

section Results

variable {m : ℕ}

/-- In every order of the steps of the caller and of the threads: the mutex excludes, threads exist
exactly as long as the tunnel runs and leave only when they are told to, no thread sleeps through
the signal, and no call gets stuck. -/
theorem stop_condition_safe (loops : Fin m → Loop) (actions : List (Action m)) (s : State m)
    (h : run loops (initial m) actions = some s) :
    (∀ i j, (s.threads i).critical = true → (s.threads j).critical = true → i = j) ∧
      (s.caller = .idle → ∀ i, (s.threads i = .absent ↔ s.running = false) ∧
        s.threads i ≠ .exited) ∧
      (∀ n k, s.caller = .join n k → ∀ i, s.threads i ≠ .waiting) ∧
      (s.caller ≠ .idle → ∃ a s', step loops s a = some s') := by
  have hs := (inv_initial m).run h
  refine ⟨fun i j hi hj => ?_, fun hidle i => ⟨?_, fun hexited => ?_⟩, hs.joining, step_enabled hs⟩
  · have heq := ((hs.holds i).mpr hi).symm.trans ((hs.holds j).mpr hj)
    exact Party.thread.inj (Option.some.inj heq)
  · have hpresent := hs.present i
    rw [hidle] at hpresent
    rw [← not_iff_not, ← ne_eq, hpresent]
    simp [Caller.owns]
  · have hrunning := (hs.present i).mp (by rw [hexited]; simp)
    rw [hidle] at hrunning
    have hcleared := hs.cleared (by rw [hidle]; exact hrunning)
    rw [hs.leaving i (by rw [hexited]; rfl)] at hcleared
    cases hcleared

/-- A tunnel with both of its threads. -/
def servingTunnel : State 2 :=
  (run tunnelLoops (initial 2) (.start :: List.replicate 4 (.caller true))).getD (initial 2)

theorem stop_condition_safe_serving :
    servingTunnel.caller = .idle ∧
      ∀ i, servingTunnel.threads i ≠ .absent ∧ servingTunnel.threads i ≠ .exited := by
  have hsafe := (stop_condition_safe tunnelLoops (.start :: List.replicate 4 (.caller true))
    servingTunnel rfl).2.1 rfl
  refine ⟨rfl, fun i => ⟨fun habsent => ?_, (hsafe i).2⟩⟩
  exact Bool.noConfusion ((hsafe i).1.mp habsent)

/-- Once the flag is set, `wg_stop`, `wg_relay_stop` or a failed `wg_start` is back after at most
`8 m + 3` steps of anyone, however they are scheduled, and leaves no thread behind; until then
someone can always go on. -/
theorem stop_returns (loops : Fin m → Loop) (actions : List (Action m)) (s : State m)
    (h : run loops (initial m) actions = some s) (hset : s.caller.signalled = true)
    (later : List (Action m)) (s' : State m) (h' : run loops s later = some s') :
    (∃ before after mid, later = before ++ after ∧ run loops s before = some mid ∧ Returned mid) ∨
      later.length < 8 * m + 3 ∧ ∃ a s'', step loops s' a = some s'' := by
  have hs := (inv_initial m).run h
  rcases returned_or_left hs hset h' with hreturned | ⟨hend, hle⟩
  · exact .inl hreturned
  · have hbound := stepsLeft_le hs hset
    have hidle : s'.caller ≠ .idle := fun hc => by simp [hc, Caller.signalled] at hend
    have hpos : 0 < s'.caller.rank := by
      cases hc : s'.caller <;> rw [hc] at hend <;> simp [Caller.rank, Caller.signalled] at hend ⊢
    refine .inr ⟨?_, step_enabled (hs.run h') hidle⟩
    unfold stepsLeft at hle hbound
    omega

/-- A tunnel in `wg_stop`, right after its flag was set. -/
def stoppingTunnel : State 2 :=
  (run tunnelLoops servingTunnel [.stop, .caller true, .caller true]).getD (initial 2)

theorem stop_returns_stopping :
    (∃ before after mid, [Action.caller true, .caller true] = before ++ after ∧
        run tunnelLoops stoppingTunnel before = some mid ∧ Returned mid) ∨
      2 < 8 * 2 + 3 ∧
        ∃ a s'', step tunnelLoops
          ((run tunnelLoops stoppingTunnel [.caller true, .caller true]).getD (initial 2)) a =
            some s'' :=
  stop_returns tunnelLoops
    (.start :: List.replicate 4 (.caller true) ++ [.stop, .caller true, .caller true])
    stoppingTunnel rfl rfl [.caller true, .caller true] _ rfl

end Results

end WgNx.StopCondition
