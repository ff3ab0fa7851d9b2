import JeffVm.Lib.Crew
import Mathlib.Data.List.Perm.Basic

/-!
# The thread pool

The workers of `_do_work` and the threads that call `threadpool_execute`, with one step for each
operation on the semaphore, on the mutex and on the queue, and for each call. A work is any value:
its function, its callback and their argument.
-/

set_option autoImplicit false

namespace JeffVm

universe u

namespace ThreadPool

/-- What the threads share, and what has been done with the works so far. -/
structure Pool (α : Type u) where
  threadSem : Nat
  workMutex : Bool
  work : List α
  interrupts : Nat
  called : List α
  submitted : List α
  popped : List α
  ran : List α
  calledBack : List α

/-- Where a thread stands. The first seven are a worker's, the last five a caller's. -/
inductive Thread (α : Type u) where
  | waiting
  | woken
  | entered
  | took (w : α)
  | missed
  | ready (w : α)
  | done (w : α)
  | idle
  | begun (w : α)
  | inside (w : α)
  | added
  | posted
  deriving DecidableEq

/-- What a thread may do. A signal may interrupt `sem_wait`, whose result is not looked at. -/
inductive Action (α : Type u) where
  | next
  | interrupt
  | call (w : α)
  deriving DecidableEq

variable {α : Type u}

/-- The next operation of a thread, unless it is blocked. -/
def advance (p : Pool α) : Thread α → Option (Pool α × Thread α)
  -- `_do_work`
  | .waiting =>
    match p.threadSem with
    | 0 => none
    | n + 1 => some ({ p with threadSem := n }, .woken)
  | .woken => if p.workMutex then none else some ({ p with workMutex := true }, .entered)
  | .entered =>
    match p.work with
    | [] => some ({ p with threadSem := p.threadSem + 1 }, .missed)
    | w :: rest => some ({ p with work := rest, popped := p.popped ++ [w] }, .took w)
  | .took w => some ({ p with workMutex := false }, .ready w)
  | .missed => some ({ p with workMutex := false }, .waiting)
  | .ready w => some ({ p with ran := p.ran ++ [w] }, .done w)
  | .done w => some ({ p with calledBack := p.calledBack ++ [w] }, .waiting)
  -- `threadpool_execute`
  | .idle => none
  | .begun w => if p.workMutex then none else some ({ p with workMutex := true }, .inside w)
  | .inside w => some ({ p with work := p.work ++ [w], submitted := p.submitted ++ [w] }, .added)
  | .added => some ({ p with threadSem := p.threadSem + 1 }, .posted)
  | .posted => some ({ p with workMutex := false }, .idle)

def act : Action α → Pool α → Thread α → Option (Pool α × Thread α)
  | .next, p, s => advance p s
  | .interrupt, p, .waiting => some ({ p with interrupts := p.interrupts + 1 }, .woken)
  | .call w, p, .idle => some ({ p with called := p.called ++ [w] }, .begun w)
  | _, _, _ => none

abbrev System (α : Type u) := Crew (Pool α) (Thread α)

abbrev Label (α : Type u) := Nat × Action α

abbrev step (c : System α) (l : Label α) : Option (System α) := Crew.step act c l

/-- `threadpool_create`, with the threads that will call `threadpool_execute`. -/
def create (numThreads callers : Nat) : System α where
  shared := ⟨0, false, [], 0, [], [], [], [], []⟩
  threads := List.replicate numThreads .waiting ++ List.replicate callers .idle

/-- A state that is reached from a new pool. -/
def Reached (numThreads callers : Nat) (C : System α → Label α → Prop) (c : System α) : Prop :=
  RunsIn step C (create numThreads callers) c

namespace Thread

/-- The thread is between the lock and the unlock of the mutex. -/
def locking : Thread α → Bool
  | entered | took _ | missed | inside _ | added | posted => true
  | _ => false

/-- The thread has passed the semaphore and will look at the queue. -/
def awake : Thread α → Bool
  | woken | entered => true
  | _ => false

/-- The thread has added a work and not yet posted for it. -/
def owes : Thread α → Bool
  | added => true
  | _ => false

/-- The thread has been called with the work and not yet added it. -/
def brings [DecidableEq α] (w : α) : Thread α → Bool
  | begun w' => w' = w
  | inside w' => w' = w
  | _ => false

/-- The thread has popped the work and not yet called its function. -/
def holds [DecidableEq α] (w : α) : Thread α → Bool
  | took w' => w' = w
  | ready w' => w' = w
  | _ => false

/-- The thread has called the function of the work and not yet its callback. -/
def owesCallback [DecidableEq α] (w : α) : Thread α → Bool
  | done w' => w' = w
  | _ => false

/-- Neither in `threadpool_execute` nor with a work. -/
def atRest : Thread α → Bool
  | waiting | idle => true
  | _ => false

def isWorker : Thread α → Bool
  | idle | begun _ | inside _ | added | posted => false
  | _ => true

/-- A bound on the steps left in a round of the thread. -/
def steps : Thread α → Int
  | waiting => 0
  | woken => 2
  | entered => 1
  | took _ => 3
  | missed => 1
  | ready _ => 2
  | done _ => 1
  | idle => 0
  | begun _ => 10
  | inside _ => 9
  | added => 5
  | posted => 1

theorem steps_nonneg (s : Thread α) : 0 ≤ s.steps := by
  cases s <;> simp only [steps] <;> omega

end Thread

/-- One for each thread that meets `p`. -/
def indicator (p : Thread α → Bool) (s : Thread α) : Int := if p s then 1 else 0

theorem indicator_nonneg (p : Thread α → Bool) (s : Thread α) : 0 ≤ indicator p s := by
  unfold indicator
  split <;> omega

/-! ## What an action does -/

/-- The cases of `act`. -/
inductive Does : Action α → Pool α → Thread α → Pool α → Thread α → Prop where
  | wait {p : Pool α} {n : Nat} : p.threadSem = n + 1 →
    Does .next p .waiting { p with threadSem := n } .woken
  | enter {p : Pool α} : p.workMutex = false →
    Does .next p .woken { p with workMutex := true } .entered
  | miss {p : Pool α} : p.work = [] →
    Does .next p .entered { p with threadSem := p.threadSem + 1 } .missed
  | pop {p : Pool α} {w : α} {rest : List α} : p.work = w :: rest →
    Does .next p .entered { p with work := rest, popped := p.popped ++ [w] } (.took w)
  | leave {p : Pool α} {w : α} : Does .next p (.took w) { p with workMutex := false } (.ready w)
  | again {p : Pool α} : Does .next p .missed { p with workMutex := false } .waiting
  | run {p : Pool α} {w : α} : Does .next p (.ready w) { p with ran := p.ran ++ [w] } (.done w)
  | callback {p : Pool α} {w : α} :
    Does .next p (.done w) { p with calledBack := p.calledBack ++ [w] } .waiting
  | lock {p : Pool α} {w : α} : p.workMutex = false →
    Does .next p (.begun w) { p with workMutex := true } (.inside w)
  | add {p : Pool α} {w : α} :
    Does .next p (.inside w) { p with work := p.work ++ [w], submitted := p.submitted ++ [w] }
      .added
  | post {p : Pool α} : Does .next p .added { p with threadSem := p.threadSem + 1 } .posted
  | unlock {p : Pool α} : Does .next p .posted { p with workMutex := false } .idle
  | interrupt {p : Pool α} :
    Does .interrupt p .waiting { p with interrupts := p.interrupts + 1 } .woken
  | call {p : Pool α} {w : α} :
    Does (.call w) p .idle { p with called := p.called ++ [w] } (.begun w)

variable {a : Action α} {p p' : Pool α} {s s' : Thread α}

theorem advance_does (h : advance p s = some (p', s')) : Does .next p s p' s' := by
  cases s with
  | waiting =>
    rw [advance] at h
    split at h
    · cases h
    · next hsem =>
      cases h
      exact .wait hsem
  | woken =>
    rw [advance] at h
    split at h
    · cases h
    · next hmutex =>
      cases h
      exact .enter (Bool.eq_false_of_not_eq_true hmutex)
  | entered =>
    rw [advance] at h
    split at h
    · next hwork =>
      cases h
      exact .miss hwork
    · next hwork =>
      cases h
      exact .pop hwork
  | begun w =>
    rw [advance] at h
    split at h
    · cases h
    · next hmutex =>
      cases h
      exact .lock (Bool.eq_false_of_not_eq_true hmutex)
  | took w => cases h; exact .leave
  | missed => cases h; exact .again
  | ready w => cases h; exact .run
  | done w => cases h; exact .callback
  | idle => cases h
  | inside w => cases h; exact .add
  | added => cases h; exact .post
  | posted => cases h; exact .unlock

theorem act_does (h : act a p s = some (p', s')) : Does a p s p' s' := by
  cases a with
  | next => exact advance_does h
  | interrupt =>
    cases s <;> cases h
    exact .interrupt
  | call w =>
    cases s <;> cases h
    exact .call

/-! ## What an action leaves balanced -/

section Laws

open Thread

/-- A thread that locks the mutex finds it unlocked; one that unlocks it holds it. -/
theorem act_mutex (h : act a p s = some (p', s')) (hheld : s.locking = true → p.workMutex = true) :
    -(p'.workMutex.toNat : Int) + indicator locking s' =
      -(p.workMutex.toNat : Int) + indicator locking s := by
  cases act_does h <;> simp_all [indicator, locking]

/-- Of each work that is in the queue the semaphore knows, or a thread that is awake, or the
caller that is about to post. -/
theorem act_tokens (h : act a p s = some (p', s')) :
    (p'.threadSem - p'.work.length - p'.interrupts : Int) +
        (indicator awake s' + indicator owes s') =
      (p.threadSem - p.work.length - p.interrupts : Int) +
        (indicator awake s + indicator owes s) := by
  cases act_does h <;> simp_all [indicator, awake, owes] <;> omega

theorem act_order (h : act a p s = some (p', s')) (horder : p.submitted = p.popped ++ p.work) :
    p'.submitted = p'.popped ++ p'.work := by
  cases act_does h <;> simp_all

variable [DecidableEq α]

theorem act_submitted (w : α) (h : act a p s = some (p', s')) :
    (p'.submitted.count w - p'.called.count w : Int) + indicator (brings w) s' =
      (p.submitted.count w - p.called.count w : Int) + indicator (brings w) s := by
  cases act_does h <;> simp_all [indicator, brings, List.count_append, List.count_singleton] <;>
    split <;> simp_all <;> omega

theorem act_ran (w : α) (h : act a p s = some (p', s')) :
    (p'.ran.count w - p'.popped.count w : Int) + indicator (holds w) s' =
      (p.ran.count w - p.popped.count w : Int) + indicator (holds w) s := by
  cases act_does h <;> simp_all [indicator, holds, List.count_append, List.count_singleton] <;>
    split <;> simp_all <;> omega

theorem act_calledBack (w : α) (h : act a p s = some (p', s')) :
    (p'.calledBack.count w - p'.ran.count w : Int) + indicator (owesCallback w) s' =
      (p.calledBack.count w - p.ran.count w : Int) + indicator (owesCallback w) s := by
  cases act_does h <;>
    simp_all [indicator, owesCallback, List.count_append, List.count_singleton] <;>
    split <;> simp_all <;> omega

end Laws

/-! ## Runs from a new pool -/

section Runs

open Thread

variable {numThreads callers : Nat} {C : System α → Label α → Prop} {c c' : System α}

theorem tally_create {f : Thread α → Int} (hwaiting : f .waiting = 0) (hidle : f .idle = 0) :
    (create numThreads callers).tally f = 0 := by
  simp [Crew.tally, create, hwaiting, hidle]

theorem held_of_balance {s : Thread α}
    (hbalance : c.balance (fun p => -(p.workMutex.toNat : Int)) (indicator locking) = 0)
    (hle : indicator locking s ≤ c.tally (indicator locking)) (hlocking : s.locking = true) :
    c.shared.workMutex = true := by
  rw [indicator, if_pos hlocking] at hle
  rw [Crew.balance] at hbalance
  cases hmutex : c.shared.workMutex with
  | true => rfl
  | false =>
    rw [hmutex, Bool.toNat_false] at hbalance
    omega

theorem balance_mutex (h : Reached numThreads callers C c) :
    c.tally (indicator locking) = c.shared.workMutex.toNat := by
  have hbalance : c.balance (fun p => -(p.workMutex.toNat : Int)) (indicator locking) = 0 := by
    induction h with
    | refl =>
      rw [Crew.balance, tally_create rfl rfl]
      rfl
    | tail _ _ hstep ih =>
      obtain ⟨s, s', hs, hact, hchange⟩ := Crew.balance_step hstep
      have hle := Crew.le_tally (indicator_nonneg locking) (List.mem_of_getElem? hs)
      have hkeep := act_mutex hact (held_of_balance ih hle)
      have heq := hchange (fun p => -(p.workMutex.toNat : Int)) (indicator locking)
      omega
  rw [Crew.balance] at hbalance
  omega

/-- At most one thread is between its lock and its unlock. -/
theorem locking_le_one (h : Reached numThreads callers C c) :
    c.threads.countP locking = c.shared.workMutex.toNat := by
  have hmutex := balance_mutex h
  unfold indicator at hmutex
  rw [Crew.tally_countP] at hmutex
  exact_mod_cast hmutex

theorem tally_add (f g : Thread α → Int) (c : System α) :
    c.tally (fun s => f s + g s) = c.tally f + c.tally g := by
  unfold Crew.tally
  exact List.sum_map_add

theorem tokens (h : Reached numThreads callers C c) :
    c.shared.threadSem + c.threads.countP awake + c.threads.countP owes =
      c.shared.work.length + c.shared.interrupts := by
  have hbalance := Crew.balance_run (fun a p s p' s' (hact : act a p s = some (p', s')) => act_tokens hact) h
  rw [Crew.balance, Crew.balance, tally_create rfl rfl, tally_add] at hbalance
  unfold indicator at hbalance
  rw [Crew.tally_countP, Crew.tally_countP] at hbalance
  simp only [create, List.length_nil, Nat.cast_zero] at hbalance
  omega

theorem order (h : Reached numThreads callers C c) :
    c.shared.submitted = c.shared.popped ++ c.shared.work :=
  Crew.shared_run (fun a p s p' s' (hact : act a p s = some (p', s')) => act_order hact) h rfl

variable [DecidableEq α]

theorem count_called (h : Reached numThreads callers C c) (w : α) :
    c.shared.called.count w = c.shared.submitted.count w + c.threads.countP (brings w) := by
  have hbalance := Crew.balance_run
    (fun a p s p' s' (hact : act a p s = some (p', s')) => act_submitted w hact) h
  rw [Crew.balance, Crew.balance, tally_create rfl rfl] at hbalance
  unfold indicator at hbalance
  rw [Crew.tally_countP] at hbalance
  simp only [create, List.count_nil, Nat.cast_zero] at hbalance
  omega

theorem count_popped (h : Reached numThreads callers C c) (w : α) :
    c.shared.popped.count w = c.shared.ran.count w + c.threads.countP (holds w) := by
  have hbalance := Crew.balance_run (fun a p s p' s' (hact : act a p s = some (p', s')) => act_ran w hact) h
  rw [Crew.balance, Crew.balance, tally_create rfl rfl] at hbalance
  unfold indicator at hbalance
  rw [Crew.tally_countP] at hbalance
  simp only [create, List.count_nil, Nat.cast_zero] at hbalance
  omega

theorem count_ran (h : Reached numThreads callers C c) (w : α) :
    c.shared.ran.count w = c.shared.calledBack.count w + c.threads.countP (owesCallback w) := by
  have hbalance := Crew.balance_run (fun a p s p' s' (hact : act a p s = some (p', s')) => act_calledBack w hact) h
  rw [Crew.balance, Crew.balance, tally_create rfl rfl] at hbalance
  unfold indicator at hbalance
  rw [Crew.tally_countP] at hbalance
  simp only [create, List.count_nil, Nat.cast_zero] at hbalance
  omega

/-- In every interleaving at most one thread is inside the mutex, the works are popped in the order
in which they were added, each is run as often as it is popped and called back as often as it is
run, but for those that a thread still has, and there is a token or a thread for each work that
waits. -/
theorem pool_accounts (h : Reached numThreads callers C c) :
    c.threads.countP locking ≤ 1 ∧ c.shared.submitted = c.shared.popped ++ c.shared.work ∧
      (∀ w, c.shared.called.count w =
          c.shared.submitted.count w + c.threads.countP (brings w) ∧
        c.shared.popped.count w = c.shared.ran.count w + c.threads.countP (holds w) ∧
        c.shared.ran.count w =
          c.shared.calledBack.count w + c.threads.countP (owesCallback w)) ∧
      c.shared.work.length ≤
        c.shared.threadSem + c.threads.countP awake + c.threads.countP owes := by
  have hmutex := locking_le_one h
  have htokens := tokens h
  refine ⟨?_, order h, fun w => ⟨count_called h w, count_popped h w, count_ran h w⟩, ?_⟩
  · rw [hmutex]
    exact Bool.toNat_le _
  · omega

end Runs

/-- One caller has brought two works to a pool of two threads; one thread has run the first and
the other has popped the second. -/
def busyLabels : List (Label Nat) :=
  [(2, .call 7), (2, .next), (2, .next), (0, .interrupt), (2, .next), (2, .next), (0, .next),
    (0, .next), (0, .next), (0, .next), (2, .call 8), (2, .next), (2, .next), (2, .next),
    (1, .next), (2, .next), (1, .next), (1, .next)]

theorem pool_accounts_busy : ∃ c, runSteps step (create 2 1) busyLabels = some c ∧
    c.threads.countP Thread.locking ≤ 1 ∧ c.shared.submitted = c.shared.popped ++ c.shared.work ∧
      (∀ w, c.shared.called.count w =
          c.shared.submitted.count w + c.threads.countP (Thread.brings w) ∧
        c.shared.popped.count w = c.shared.ran.count w + c.threads.countP (Thread.holds w) ∧
        c.shared.ran.count w =
          c.shared.calledBack.count w + c.threads.countP (Thread.owesCallback w)) ∧
      c.shared.work.length ≤
        c.shared.threadSem + c.threads.countP Thread.awake + c.threads.countP Thread.owes := by
  have hruns : (runSteps step (create 2 1) busyLabels).isSome = true := by decide
  obtain ⟨c, hc⟩ := Option.isSome_iff_exists.mp hruns
  have hreached : Reached 2 1 (fun _ _ => True) c := runs_of_runSteps hc
  exact ⟨c, hc, pool_accounts hreached⟩

/-! ## Without interrupts -/

def Uninterrupted (_ : System α) (l : Label α) : Prop := l.2 ≠ .interrupt

section Uninterrupted

open Thread

variable {numThreads callers : Nat} {c c' : System α}

theorem act_interrupts (h : act a p s = some (p', s')) (ha : a ≠ .interrupt) :
    p'.interrupts = p.interrupts := by
  cases act_does h with
  | interrupt => exact absurd rfl ha
  | _ => rfl

theorem interrupts_zero (h : Reached numThreads callers Uninterrupted c) :
    c.shared.interrupts = 0 := by
  induction h with
  | refl => rfl
  | tail _ hC hstep ih =>
    obtain ⟨s, s', -, hact, -⟩ := Crew.step_some hstep
    rw [act_interrupts hact hC, ih]

/-- A thread that has passed the semaphore finds a work. -/
theorem work_ne_nil (h : Reached numThreads callers Uninterrupted c) (hs : .entered ∈ c.threads) :
    c.shared.work ≠ [] := by
  intro hempty
  have htokens := tokens h
  have hawake : 0 < c.threads.countP awake := List.countP_pos_iff.mpr ⟨_, hs, rfl⟩
  rw [interrupts_zero h, hempty, List.length_nil] at htokens
  omega

theorem act_missed (h : act a p s = some (p', .missed)) : s = .entered ∧ p.work = [] := by
  cases act_does h with
  | miss hwork => exact ⟨rfl, hwork⟩

/-- The branch of `_do_work` for an empty queue is not taken. -/
theorem missed_not_mem (h : Reached numThreads callers Uninterrupted c) : .missed ∉ c.threads := by
  induction h with
  | refl => simp [create]
  | @tail c c' l hrun _ hstep ih =>
    obtain ⟨s, s', hs, hact, hset⟩ := Crew.step_some hstep
    rw [hset]
    intro hmem
    rcases List.mem_or_eq_of_mem_set hmem with hold | hnew
    · exact ih hold
    · subst hnew
      obtain ⟨rfl, hempty⟩ := act_missed hact
      exact work_ne_nil hrun (List.mem_of_getElem? hs) hempty

/-- A bound on the steps until the pool is at rest. -/
def potential (c : System α) : Int :=
  c.balance (fun p => 3 * (p.threadSem + p.work.length)) steps

theorem act_lowers (h : act .next p s = some (p', s')) (hwork : s = .entered → p.work ≠ []) :
    3 * (p'.threadSem + p'.work.length) + s'.steps <
      3 * (p.threadSem + p.work.length) + s.steps := by
  cases act_does h with
  | miss hempty => exact absurd hempty (hwork rfl)
  | _ => simp_all [steps] <;> omega

theorem next_lowers {i : Nat} (h : Reached numThreads callers Uninterrupted c)
    (hstep : step c (i, .next) = some c') :
    Reached numThreads callers Uninterrupted c' ∧ potential c' < potential c := by
  obtain ⟨s, s', hs, hact, hchange⟩ := Crew.balance_step hstep
  have hC : Uninterrupted c (i, .next) := by
    intro hinterrupt
    cases hinterrupt
  refine ⟨.tail h hC hstep, ?_⟩
  have hlower := act_lowers hact fun hentered =>
    work_ne_nil h (List.mem_of_getElem? (hentered ▸ hs))
  have heq := hchange (fun p => 3 * (p.threadSem + p.work.length)) steps
  unfold potential
  omega

/-- However the threads are scheduled, they come to rest when there are no more calls. -/
theorem next_bounded {ls : List (Label α)} (h : Reached numThreads callers Uninterrupted c)
    (hnext : ∀ l ∈ ls, l.2 = .next) (hrun : runSteps step c ls = some c') :
    (ls.length : Int) ≤ potential c := by
  refine Crew.length_le_balance ?_ steps_nonneg ?_ h hrun
  · intro p
    omega
  · intro l hl c c' h' hstep
    obtain ⟨i, a⟩ := l
    have ha : a = .next := hnext _ hl
    subst ha
    exact next_lowers h' hstep

/-! ## At rest -/

theorem act_isWorker (h : act a p s = some (p', s')) :
    (0 : Int) + indicator isWorker s' = 0 + indicator isWorker s := by
  cases act_does h <;> rfl

theorem countP_isWorker (h : Reached numThreads callers Uninterrupted c) :
    c.threads.countP isWorker = numThreads := by
  have hbalance : c.balance (fun _ => 0) (indicator isWorker) =
      (create numThreads callers).balance (fun _ : Pool α => 0) (indicator isWorker) :=
    Crew.balance_run (fun a p s p' s' (hact : act a p s = some (p', s')) => act_isWorker hact) h
  unfold Crew.balance indicator at hbalance
  rw [Crew.tally_countP, Crew.tally_countP] at hbalance
  simp only [create, List.countP_append, List.countP_replicate, isWorker, if_true, zero_add] at hbalance
  simpa using hbalance

/-- Where no thread can go on, each has nothing to do. -/
theorem atRest_of_stuck (h : Reached numThreads callers Uninterrupted c)
    (hstuck : ∀ i, step c (i, .next) = none) : ∀ s ∈ c.threads, s.atRest = true := by
  have hadvance : ∀ s ∈ c.threads, advance c.shared s = none := by
    intro s hs
    obtain ⟨i, hi⟩ := List.mem_iff_getElem?.mp hs
    exact Crew.step_none (hstuck i) hi
  have hlocking : ∀ s ∈ c.threads, s.locking = false := by
    intro s hs
    have hnone := hadvance s hs
    cases s with
    | entered =>
      rw [advance] at hnone
      split at hnone <;> cases hnone
    | took | missed | inside | added | posted => cases hnone
    | _ => rfl
  have hfree : c.shared.workMutex = false := by
    have hmutex := locking_le_one h
    rw [List.countP_eq_zero.mpr fun s hs => by simp [hlocking s hs]] at hmutex
    exact Bool.toNat_eq_zero.mp hmutex.symm
  intro s hs
  have hnone := hadvance s hs
  have hout := hlocking s hs
  cases s with
  | waiting | idle => rfl
  | woken | begun => simp [advance, hfree] at hnone
  | ready | done => cases hnone
  | _ => cases hout

theorem threadSem_zero (h : Reached numThreads callers Uninterrupted c) (hthreads : 0 < numThreads)
    (hstuck : ∀ i, step c (i, .next) = none) : c.shared.threadSem = 0 := by
  have hworker : 0 < c.threads.countP isWorker := by
    rw [countP_isWorker h]
    exact hthreads
  obtain ⟨s, hs, hisWorker⟩ := List.countP_pos_iff.mp hworker
  have hrest := atRest_of_stuck h hstuck s hs
  obtain ⟨i, hi⟩ := List.mem_iff_getElem?.mp hs
  have hnone : advance c.shared s = none := Crew.step_none (hstuck i) hi
  cases s with
  | waiting =>
    rw [advance] at hnone
    split at hnone
    · assumption
    · cases hnone
  | idle => cases hisWorker
  | _ => cases hrest

theorem countP_zero {p : Thread α → Bool} (hrest : ∀ s ∈ c.threads, s.atRest = true)
    (hwaiting : p .waiting = false) (hidle : p .idle = false) : c.threads.countP p = 0 := by
  apply List.countP_eq_zero.mpr
  intro s hs
  have hs' := hrest s hs
  cases s with
  | waiting => simp [hwaiting]
  | idle => simp [hidle]
  | _ => cases hs'

theorem work_nil (h : Reached numThreads callers Uninterrupted c) (hthreads : 0 < numThreads)
    (hstuck : ∀ i, step c (i, .next) = none) : c.shared.work = [] := by
  have hrest := atRest_of_stuck h hstuck
  have htokens := tokens h
  rw [threadSem_zero h hthreads hstuck, countP_zero hrest rfl rfl, countP_zero hrest rfl rfl,
    interrupts_zero h] at htokens
  exact List.eq_nil_of_length_eq_zero htokens.symm

theorem act_called (h : act .next p s = some (p', s')) : p'.called = p.called := by
  generalize ha : Action.next = a at h
  cases act_does h with
  | call => cases ha
  | _ => rfl

theorem called_next {ls : List (Label α)} (hnext : ∀ l ∈ ls, l.2 = .next)
    (hrun : runSteps step c ls = some c') : c'.shared.called = c.shared.called := by
  induction ls generalizing c with
  | nil =>
    rw [runSteps] at hrun
    cases hrun
    rfl
  | cons l ls ih =>
    rw [runSteps] at hrun
    cases hl : step c l with
    | none => simp [hl] at hrun
    | some c₁ =>
      rw [hl] at hrun
      obtain ⟨s, s', -, hact, -⟩ := Crew.step_some hl
      rw [hnext l List.mem_cons_self] at hact
      rw [ih (fun l' hl' => hnext l' (List.mem_cons_of_mem l hl')) hrun, act_called hact]

theorem reached_next {ls : List (Label α)} (h : Reached numThreads callers Uninterrupted c)
    (hnext : ∀ l ∈ ls, l.2 = .next) (hrun : runSteps step c ls = some c') :
    Reached numThreads callers Uninterrupted c' := by
  apply RunsIn.trans h
  apply runsIn_of_runSteps hrun
  intro l hl c₁ hinterrupt
  rw [hnext l hl] at hinterrupt
  cases hinterrupt

/-- When there are no more calls the threads come to rest, whatever the schedule, and then each
work that `threadpool_execute` was called with has been run and called back once for each call. -/
theorem pool_drains [DecidableEq α] {ls : List (Label α)}
    (h : Reached numThreads callers Uninterrupted c) (hthreads : 0 < numThreads)
    (hnext : ∀ l ∈ ls, l.2 = .next) (hrun : runSteps step c ls = some c') :
    ls.length ≤ potential c ∧ .missed ∉ c'.threads ∧
      ((∀ i, step c' (i, .next) = none) → c'.shared.work = [] ∧
        (∀ s ∈ c'.threads, s.atRest = true) ∧ c'.shared.ran.Perm c.shared.called ∧
          c'.shared.calledBack.Perm c.shared.called) := by
  have h' := reached_next h hnext hrun
  refine ⟨next_bounded h hnext hrun, missed_not_mem h', ?_⟩
  intro hstuck
  have hrest := atRest_of_stuck h' hstuck
  have hwork := work_nil h' hthreads hstuck
  have hran : ∀ w, c'.shared.ran.count w = c.shared.called.count w := by
    intro w
    have hcalled := count_called h' w
    have hpopped := count_popped h' w
    rw [countP_zero hrest rfl rfl] at hcalled hpopped
    rw [← called_next hnext hrun, hcalled, order h', hwork, List.append_nil, hpopped]
    rfl
  have hcalledBack : ∀ w, c'.shared.calledBack.count w = c.shared.called.count w := by
    intro w
    have hback := count_ran h' w
    rw [countP_zero hrest rfl rfl] at hback
    rw [← hran w, hback]
    rfl
  exact ⟨hwork, hrest, List.perm_iff_count.mpr hran, List.perm_iff_count.mpr hcalledBack⟩

end Uninterrupted

/-- A work that has been brought, and the steps that are left for it. -/
def drainLabels : List (Label Nat) :=
  [(1, .next), (1, .next), (1, .next), (0, .next), (1, .next), (0, .next), (0, .next), (0, .next),
    (0, .next), (0, .next)]

theorem pool_drains_call : ∃ c c', step (create 1 1) (1, .call 7) = some c ∧
    runSteps step c drainLabels = some c' ∧ (drainLabels.length : Int) ≤ potential c ∧
      c'.shared.calledBack.Perm c.shared.called := by
  have hruns : ((step (create 1 1) (1, .call 7)).bind fun c =>
      runSteps step c drainLabels).isSome = true := by decide
  obtain ⟨c', hc'⟩ := Option.isSome_iff_exists.mp hruns
  obtain ⟨c, hc, hrun⟩ := Option.bind_eq_some_iff.mp hc'
  have hcall : Uninterrupted (create 1 1) (1, .call 7) := by
    intro hinterrupt
    cases hinterrupt
  have hreached : Reached 1 1 Uninterrupted c := RunsIn.single hcall hc
  have hdrains := pool_drains hreached Nat.one_pos (by decide) hrun
  have hstuck : ∀ i, step c' (i, .next) = none := by
    intro i
    cases hc
    cases hrun
    match i with
    | 0 => rfl
    | 1 => rfl
    | i + 2 => rfl
  exact ⟨c, c', hc, hrun, hdrains.1, (hdrains.2.2 hstuck).2.2.2⟩

/-! ## What the callers see -/

/-- A call of `threadpool_execute`, or of a callback. -/
inductive Seen (α : Type u) where
  | called (w : α)
  | calledBack (w : α)

/-- The works that are outstanding, without threads: the `background` list of a process. -/
def outstandingStep [DecidableEq α] (outstanding : List α) : Seen α → Option (List α)
  | .called w => some (outstanding ++ [w])
  | .calledBack w => if w ∈ outstanding then some (outstanding.erase w) else none

/-- What the callers see of a step. -/
def seen (c : System α) (l : Label α) : Option (Seen α) :=
  match l.2, c.threads[l.1]? with
  | .call w, some .idle => some (.called w)
  | .next, some (.done w) => some (.calledBack w)
  | _, _ => none

def seenAlong (c : System α) : List (Label α) → List (Seen α)
  | [] => []
  | l :: ls =>
    match step c l with
    | none => []
    | some c' => (seen c l).toList ++ seenAlong c' ls

section Seen

open Thread

variable [DecidableEq α] {numThreads callers : Nat} {C : System α → Label α → Prop}
  {c c' : System α}

/-- The list holds what was called and has not been called back. -/
def Outstanding (c : System α) (outstanding : List α) : Prop :=
  ∀ w, outstanding.count w + c.shared.calledBack.count w = c.shared.called.count w

theorem mem_of_done {outstanding : List α} {w : α} (h : Reached numThreads callers C c)
    (ho : Outstanding c outstanding) (hdone : .done w ∈ c.threads) : w ∈ outstanding := by
  have hheld : 0 < c.threads.countP (owesCallback w) :=
    List.countP_pos_iff.mpr ⟨_, hdone, by simp [owesCallback]⟩
  have hcalled := count_called h w
  have hpopped := count_popped h w
  have hran := count_ran h w
  have horder := congrArg (List.count w) (order h)
  rw [List.count_append] at horder
  have hout := ho w
  apply List.count_pos_iff.mp
  omega

theorem seen_step {l : Label α} {outstanding : List α} (h : Reached numThreads callers C c)
    (ho : Outstanding c outstanding) (hstep : step c l = some c') :
    ∃ outstanding', runSteps outstandingStep outstanding (seen c l).toList = some outstanding' ∧
      Outstanding c' outstanding' := by
  obtain ⟨i, a⟩ := l
  obtain ⟨s, s', hs, hact, -⟩ := Crew.step_some hstep
  unfold seen
  rw [hs]
  unfold Outstanding at ho ⊢
  generalize c'.shared = p' at hact ⊢
  generalize hp : c.shared = p at hact
  cases act_does hact with
  | call =>
    rename_i w
    refine ⟨outstanding ++ [w], rfl, ?_⟩
    intro w'
    have hw := ho w'
    simp only [hp, List.count_append] at hw ⊢
    omega
  | callback =>
    rename_i w
    have hmem := mem_of_done h ho (List.mem_of_getElem? hs)
    refine ⟨outstanding.erase w, ?_, ?_⟩
    · simp [runSteps, outstandingStep, hmem]
    · intro w'
      have hw := ho w'
      have hcount : (outstanding.erase w).count w' =
          outstanding.count w' - if w == w' then 1 else 0 := List.count_erase
      have hpos := List.count_pos_iff.mpr hmem
      simp only [hp, List.count_append, List.count_singleton] at hw ⊢
      by_cases hne : w' = w
      · subst hne
        simp at hcount ⊢
        omega
      · have hne' : w ≠ w' := fun heq => hne heq.symm
        simp [hne'] at hcount ⊢
        omega
  | _ =>
    refine ⟨outstanding, rfl, ?_⟩
    intro w'
    have hw := ho w'
    rw [hp] at hw
    exact hw

theorem seen_run {ls : List (Label α)} {outstanding : List α}
    (h : Reached numThreads callers C c) (ho : Outstanding c outstanding)
    (hC : ∀ c l, C c l) (hrun : runSteps step c ls = some c') :
    ∃ outstanding', runSteps outstandingStep outstanding (seenAlong c ls) = some outstanding' ∧
      Outstanding c' outstanding' := by
  induction ls generalizing c outstanding with
  | nil =>
    rw [runSteps] at hrun
    cases hrun
    exact ⟨outstanding, rfl, ho⟩
  | cons l ls ih =>
    rw [runSteps] at hrun
    cases hl : step c l with
    | none => simp [hl] at hrun
    | some c₁ =>
      rw [hl] at hrun
      obtain ⟨outstanding₁, hseen, ho₁⟩ := seen_step h ho hl
      obtain ⟨outstanding', hrest, ho'⟩ := ih (.tail h (hC c l) hl) ho₁ hrun
      refine ⟨outstanding', ?_, ho'⟩
      rw [seenAlong, hl, runSteps_append, hseen]
      exact hrest

/-- The calls and callbacks of any run are a run of the list of outstanding works: a callback is
of a work that was called and has not been called back. -/
theorem pool_refines_outstanding {ls : List (Label α)}
    (hrun : runSteps step (create numThreads callers) ls = some c) :
    ∃ outstanding, runSteps outstandingStep [] (seenAlong (create numThreads callers) ls) =
      some outstanding ∧ Outstanding c outstanding := by
  have hnew : Reached numThreads callers (fun _ _ => True) (create numThreads callers : System α) :=
    .refl _
  exact seen_run hnew (fun w => rfl) (fun _ _ => trivial) hrun

theorem pool_refines_outstanding_busy : ∃ outstanding,
    runSteps outstandingStep [] (seenAlong (create 2 1) busyLabels) = some outstanding := by
  have hruns : (runSteps step (create 2 1) busyLabels).isSome = true := by decide
  obtain ⟨c, hc⟩ := Option.isSome_iff_exists.mp hruns
  obtain ⟨outstanding, hseen, -⟩ := pool_refines_outstanding hc
  exact ⟨outstanding, hseen⟩

end Seen

end ThreadPool

end JeffVm
