import ArcDischarge.Machine.Fair
import ArcDischarge.Startup.Model

/-!
# Every worker starts

The slice of workers is written once, before any worker reads it, and has an entry for each thread
that has been spawned. So no worker panics on its way into `run_forever`; and if `new` panics, no
worker gets there, ever. A worker that parks although the slice is there has its token, or will get
it from the loop that unparks. Hence in a fair run in which `new` does not fail, all `n` workers
run.
-/

namespace ArcDischarge.Startup

open Machine Run

variable {n : ℕ} {c : State} {m m' : Shared} {p p' q : Pc} {a : Label} {i j : Agent}

/-! ## The slice of workers -/

/-- The slice, if it is there, has all workers, each with its own thread. -/
structure Coherent (n : ℕ) (m : Shared) : Prop where
  le : m.spawned ≤ n
  workers : ∀ ws, m.workers = some ws → ws = List.range n ∧ m.spawned = n

/-- What an agent knows at its program counter. -/
def Knows (n : ℕ) : Agent → Shared → Pc → Prop
  | .main, m, p => match p with
    | .driver => m.spawned = 0 ∧ m.workers = none
    | .spawn ws => ws = List.range m.spawned ∧ m.workers = none
    | .set ws => ws = List.range n ∧ m.spawned = n ∧ m.workers = none
    | .unpark i => i ≤ n ∧ m.workers = some (List.range n)
    | .returned => m.workers = some (List.range n)
    | .panicked => m.workers = none
    | _ => False
  | .worker i, m, p => match p with
    | .unborn => True
    | .check | .park => i < m.spawned
    | .enter | .running => i < m.spawned ∧ m.workers ≠ none
    | _ => False

theorem Move.own (hm : Coherent n m) (hp : Knows n i m p) (h : Move n m i p a m' p') :
    Coherent n m' ∧ Knows n i m' p' := by
  cases h with
  | driver =>
    obtain ⟨hspawned, hworkers⟩ := hp
    exact ⟨hm, by simp [hspawned], hworkers⟩
  | driverFails => exact ⟨hm, hp.2⟩
  | spawnFails => exact ⟨hm, hp.2⟩
  | @spawn ws h =>
    obtain ⟨rfl, hworkers⟩ := hp
    rw [List.length_range] at h ⊢
    refine ⟨⟨h, fun ws hws ↦ ?_⟩, List.range_succ.symm, hworkers⟩
    cases hworkers.symm.trans hws
  | @spawned ws h =>
    obtain ⟨rfl, hworkers⟩ := hp
    rw [List.length_range] at h
    have hspawned := le_antisymm hm.le h
    exact ⟨hm, by rw [hspawned], hspawned, hworkers⟩
  | set =>
    obtain ⟨rfl, hspawned, -⟩ := hp
    refine ⟨⟨hm.le, fun ws hws ↦ ?_⟩, Nat.zero_le n, rfl⟩
    cases hws
    exact ⟨rfl, hspawned⟩
  | setAgain h => cases hp.2.2.symm.trans h
  | unparkNone h => cases hp.2.symm.trans h
  | @unpark k thread ws h hk =>
    obtain ⟨-, hworkers⟩ := hp
    obtain rfl : List.range n = ws := Option.some.inj (hworkers.symm.trans h)
    have hlt : k < n := by simpa using (List.getElem?_eq_some_iff.mp hk).1
    exact ⟨⟨hm.le, hm.workers⟩, hlt, hworkers⟩
  | unparked => exact ⟨hm, hp.2⟩
  | start h => exact ⟨hm, h⟩
  | checkNone => exact ⟨hm, hp⟩
  | check h => exact ⟨hm, hp, by simp [h]⟩
  | park => exact ⟨⟨hm.le, hm.workers⟩, hp⟩
  | spurious => exact ⟨hm, hp⟩
  | enterNone h => exact absurd h hp.2
  | enter => exact ⟨hm, hp⟩
  | @enterOut k ws h hk =>
    obtain ⟨rfl, hspawned⟩ := hm.workers ws h
    have hlt : k < n := hspawned ▸ hp.1
    simp [hlt] at hk

/-- The main thread alone writes the slice, once, and it spawns only. -/
theorem Move.mono (h : Move n m i p a m' p') :
    (i ≠ .main → m'.spawned = m.spawned ∧ m'.workers = m.workers) ∧
      (Knows n .main m p → i = .main →
        m.spawned ≤ m'.spawned ∧ (m.workers ≠ none → m'.workers ≠ none)) := by
  cases h with
  | @spawn ws h =>
    refine ⟨fun hi ↦ absurd rfl hi, fun hp _ ↦ ⟨?_, id⟩⟩
    have hlength : ws.length = m.spawned := by
      rw [hp.1, List.length_range]
    simp [hlength]
  | set => exact ⟨fun hi ↦ absurd rfl hi, fun _ _ ↦ ⟨le_rfl, by simp⟩⟩
  | _ => exact ⟨fun _ ↦ ⟨rfl, rfl⟩, fun _ _ ↦ ⟨le_rfl, id⟩⟩

theorem Knows.other (hq : Knows n j m q) (hp : Knows n i m p) (h : Move n m i p a m' p')
    (hne : j ≠ i) : Knows n j m' q := by
  cases j with
  | main =>
    obtain ⟨hspawned, hworkers⟩ := h.mono.1 hne.symm
    cases q with
    | driver | spawn | set | unpark | returned | panicked =>
      simpa only [Knows, hspawned, hworkers] using hq
    | _ => exact hq
  | worker k =>
    have hmono : m.spawned ≤ m'.spawned ∧ (m.workers ≠ none → m'.workers ≠ none) := by
      by_cases hi : i = .main
      · subst hi
        exact h.mono.2 hp rfl
      · obtain ⟨hspawned, hworkers⟩ := h.mono.1 hi
        rw [hspawned, hworkers]
        exact ⟨le_rfl, id⟩
    cases q with
    | check | park => exact lt_of_lt_of_le hq hmono.1
    | enter | running => exact ⟨lt_of_lt_of_le hq.1 hmono.1, hmono.2 hq.2⟩
    | _ => exact hq

theorem coherent_of_reachable (h : (machine n).Reachable c) :
    System.Holds (Coherent n) (Knows n) c := by
  refine System.holds_of_reachableUnder h ?_ ?_ ?_
  · rintro _ rfl
    refine ⟨⟨Nat.zero_le n, fun ws hws ↦ by cases hws⟩, fun i ↦ ?_⟩
    cases i with
    | main => exact ⟨rfl, rfl⟩
    | worker k => trivial
  · rintro c i a m p - ⟨hm, hp⟩ - hs
    exact (move_of_step hs).own hm (hp i)
  · rintro c i a m p - ⟨-, hp⟩ - hs j hj
    exact (hp j).other (hp i) (move_of_step hs) hj

/-! ## No unpark is lost -/

/-- A worker that sleeps although the slice is there: it has its token, or the loop that unparks has
not got to it yet. -/
def Unparked (c : State) : Prop := ∀ i, c.pc (.worker i) = .park →
  c.shared.workers = none ∨ c.shared.token i = true ∨ ∃ k, c.pc .main = .unpark k ∧ k ≤ i

theorem Unparked.main (hc : System.Holds (Coherent n) (Knows n) c) (hI : Unparked c)
    (h : Move n c.shared .main (c.pc .main) a m' p') :
    Unparked ⟨m', Function.update c.pc .main p'⟩ := by
  intro i hi
  have hi' : c.pc (.worker i) = .park := by simpa using hi
  have hold := hI i hi'
  have hknows : Knows n .main c.shared (c.pc .main) := hc.2 .main
  generalize hpc : c.pc .main = p at h hold hknows
  cases h with
  | driver | driverFails | spawn | spawned | spawnFails => exact Or.inl hknows.2
  | set => exact Or.inr (Or.inr ⟨0, by simp, Nat.zero_le i⟩)
  | setAgain h => cases hknows.2.2.symm.trans h
  | unparkNone h => exact Or.inl h
  | @unpark k thread ws h hk =>
    obtain ⟨rfl, -⟩ := hc.1.workers ws h
    obtain rfl : k = thread := by
      rw [List.getElem?_eq_some_iff] at hk
      simpa using hk.2
    rcases hold with hold | hold | ⟨k', hk', hle⟩
    · cases h.symm.trans hold
    · refine Or.inr (Or.inl ?_)
      by_cases hik : i = k
      · simp [hik]
      · simpa [hik] using hold
    · cases hk'
      rcases hle.eq_or_lt with rfl | hlt
      · exact Or.inr (Or.inl (by simp))
      · exact Or.inr (Or.inr ⟨k + 1, by simp, hlt⟩)
  | @unparked k ws h hk =>
    obtain ⟨rfl, hspawned⟩ := hc.1.workers ws h
    rcases hold with hold | hold | ⟨k', hk', hle⟩
    · exact Or.inl hold
    · exact Or.inr (Or.inl hold)
    · -- the loop has passed every worker
      cases hk'
      have hlt : i < c.shared.spawned := hc.agent hi'
      rw [List.getElem?_eq_none_iff, List.length_range] at hk
      omega

theorem Unparked.worker {k : ℕ} (hI : Unparked c)
    (h : Move n c.shared (.worker k) (c.pc (.worker k)) a m' p') :
    Unparked ⟨m', Function.update c.pc (.worker k) p'⟩ := by
  have hworkers : m'.workers = c.shared.workers := (h.mono.1 (by simp)).2
  intro i hi
  by_cases hik : i = k
  · subst hik
    simp only [Function.update_self] at hi
    generalize c.pc (.worker i) = p at h
    cases h with
    | checkNone h => exact Or.inl h
    | _ => cases hi
  · have hi' : c.pc (.worker i) = .park := by simpa [hik] using hi
    have htoken : m'.token i = c.shared.token i := by
      generalize c.pc (.worker k) = p at h
      cases h with
      | park => simp [hik]
      | _ => rfl
    simpa [hworkers, htoken] using hI i hi'

theorem unparked_of_reachable (h : (machine n).Reachable c) : Unparked c := by
  refine System.invariant h ?_ fun c i a m p hc hI _ hs ↦ ?_
  · rintro _ rfl i hi
    cases hi
  · cases i with
    | main => exact hI.main (coherent_of_reachable hc) (move_of_step hs)
    | worker k => exact hI.worker (n := n) (move_of_step hs)

theorem workers_of_ne_none (hc : System.Holds (Coherent n) (Knows n) c)
    (hne : c.shared.workers ≠ none) :
    c.shared.workers = some (List.range n) ∧ c.shared.spawned = n := by
  obtain ⟨ws, hws⟩ := Option.ne_none_iff_exists'.mp hne
  obtain ⟨rfl, hspawned⟩ := hc.1.workers ws hws
  exact ⟨hws, hspawned⟩

/-- Once `new` has returned, no worker sleeps without its token. -/
theorem token_of_returned (h : (machine n).Reachable c) (hp : c.pc .main = .returned) :
    c.shared.workers = some (List.range n) ∧
      ∀ i, c.pc (.worker i) = .park → c.shared.token i = true := by
  have hw : c.shared.workers = some (List.range n) := (coherent_of_reachable h).agent hp
  refine ⟨hw, fun i hi ↦ ?_⟩
  rcases unparked_of_reachable h i hi with h | h | ⟨k, hk, -⟩
  · cases hw.symm.trans h
  · exact h
  · cases hp.symm.trans hk

/-- What holds while the runtime starts. -/
structure Starts (n : ℕ) (c : State) : Prop where
  safe : ∀ i, c.pc (.worker i) ≠ .panicked
  running : ∀ i, c.pc (.worker i) = .running → i < n ∧ c.shared.workers = some (List.range n)
  /-- `new` panics only if a system call fails. -/
  fails : ∀ d, (machine n).step c (.main, .step) = some d → c.pc .main ≠ .panicked →
    d.pc .main ≠ .panicked
  /-- If it does, no worker gets into `run_forever`. -/
  panicked : c.pc .main = .panicked → c.shared.workers = none ∧
    ∀ i, c.pc (.worker i) ≠ .enter ∧ c.pc (.worker i) ≠ .running
  returned : c.pc .main = .returned → c.shared.workers = some (List.range n) ∧
    ∀ i, c.pc (.worker i) = .park → c.shared.token i = true

/-- **The runtime starts safely**, in every interleaving of the main thread and the workers. -/
theorem starts_of_reachable (c : State) (h : (machine n).Reachable c) : Starts n c := by
  have hc := coherent_of_reachable h
  refine ⟨fun i hi ↦ ?_, fun i hi ↦ ?_, fun d hd _ hd' ↦ ?_, fun hp ↦ ?_, token_of_returned h⟩
  · exact hc.agent hi
  · have hknows : i < c.shared.spawned ∧ c.shared.workers ≠ none := hc.agent hi
    obtain ⟨hw, hspawned⟩ := workers_of_ne_none hc hknows.2
    exact ⟨hspawned ▸ hknows.1, hw⟩
  · obtain ⟨m, p, hs, rfl⟩ := System.machine_step_eq_some.mp hd
    have hmove : Move n c.shared .main (c.pc .main) .step m p := move_of_step hs
    have hknows := hc.2 .main
    simp only [Function.update_self] at hd'
    subst hd'
    generalize c.pc .main = q at hmove hknows
    cases hmove with
    | setAgain h => cases hknows.2.2.symm.trans h
    | unparkNone h => cases hknows.2.symm.trans h
  · have hnone : c.shared.workers = none := hc.agent hp
    refine ⟨hnone, fun i ↦ ⟨fun hi ↦ ?_, fun hi ↦ ?_⟩⟩
    · have hknows : i < c.shared.spawned ∧ c.shared.workers ≠ none := hc.agent hi
      exact hknows.2 hnone
    · have hknows : i < c.shared.spawned ∧ c.shared.workers ≠ none := hc.agent hi
      exact hknows.2 hnone

/-! ## The workers run -/

/-- The turn of an agent: its own step, not a failure and not a spurious return. -/
def takes (i : Agent) (a : Agent × Label) : Prop := a = (i, .step)

def Fair (r : (machine n).Run) : Prop := ∀ i, r.WeaklyFair (takes i)

/-- How far `new` is from its return. -/
def toReturn (n : ℕ) : Pc → ℕ
  | .driver => 2 * n + 4
  | .spawn ws => 2 * n + 3 - ws.length
  | .set _ => n + 2
  | .unpark i => n + 1 - i
  | _ => 0

theorem Move.toReturn (hm : Coherent n m) (hp : Knows n .main m p) (h : Move n m .main p a m' p') :
    Startup.toReturn n p' < Startup.toReturn n p := by
  cases h with
  | driver | driverFails =>
    simp only [Startup.toReturn, List.length_nil]
    omega
  | spawn h =>
    simp only [Startup.toReturn, List.length_append, List.length_singleton]
    omega
  | spawned h =>
    have hle : m.spawned ≤ n := hm.le
    obtain ⟨rfl, -⟩ := hp
    simp only [Startup.toReturn, List.length_range]
    omega
  | spawnFails | set | setAgain =>
    simp only [Startup.toReturn]
    omega
  | unparkNone h => cases hp.2.symm.trans h
  | unpark h hi =>
    obtain ⟨rfl, -⟩ := hm.workers _ h
    have hlt := (List.getElem?_eq_some_iff.mp hi).1
    rw [List.length_range] at hlt
    simp only [Startup.toReturn]
    omega
  | unparked =>
    have hle := hp.1
    simp only [Startup.toReturn]
    omega

/-- `new` has come to its end. -/
def Ended (c : State) : Prop := c.pc .main = .returned ∨ c.pc .main = .panicked

theorem leadsTo_ended {r : (machine n).Run} (hfair : Fair r) :
    r.LeadsTo (fun c ↦ ¬Ended c) Ended := by
  have hserved : r.Served (takes .main) fun c ↦ ¬Ended c := by
    refine (hfair .main).served fun c hc hnot ↦ ?_
    refine System.enabled_of_step (A := takes .main) (a := .step) rfl ?_
    have hknows := (coherent_of_reachable hc).2 .main
    rw [Ended] at hnot
    generalize c.pc .main = p at hnot hknows
    cases p with
    | driver => rfl
    | spawn ws =>
      simp only [system, step, mainStep]
      split <;> rfl
    | set ws =>
      simp only [system, step, mainStep]
      split <;> rfl
    | unpark i =>
      simp only [system, step, mainStep]
      repeat' split
      all_goals rfl
    | returned | panicked => simp at hnot
    | _ => exact absurd hknows id
  refine System.leadsTo_of_agent (Startup.toReturn n) hserved (fun _ h ↦ by rw [h]) ?_ ?_
  · rintro c a m p hc - hs
    obtain ⟨hm, hp⟩ := coherent_of_reachable hc
    have hlt := (move_of_step (i := .main) hs).toReturn hm (hp .main)
    exact (em _).imp id fun hnot ↦ ⟨hnot, Or.inl hlt⟩
  · rintro c j a m p - - - -
    exact em _

/-- How far a worker is from `run_forever`, once the slice is there. -/
def toRun : Pc → ℕ
  | .unborn | .park => 3
  | .check => 2
  | .enter => 1
  | _ => 0

theorem Move.toRun {i : ℕ} (hp : Knows n (.worker i) m p) (h : Move n m (.worker i) p a m' p')
    (hw : m.workers ≠ none) :
    p' = .running ∨ p' = .panicked ∨ Startup.toRun p' < Startup.toRun p := by
  cases h with
  | start | check | park | spurious => exact Or.inr (Or.inr (by simp [Startup.toRun]))
  | checkNone h => exact absurd h hw
  | enter => exact Or.inl rfl
  | enterNone | enterOut => exact Or.inr (Or.inl rfl)

/-- An agent that has no more steps stays where it is. -/
theorem stable_of_final {i : Agent} {q : Pc}
    (hq : ∀ {m a m' p'}, ¬Move n m i q a m' p') (c : State) (a : Agent × Label) (d : State)
    (_ : (machine n).Reachable c) (hc : c.pc i = q) (hcd : (machine n).step c a = some d) :
    d.pc i = q := by
  obtain ⟨m, p, hs, rfl⟩ := System.machine_step_eq_some.mp hcd
  by_cases hi : a.1 = i
  · have hmove : Move n c.shared a.1 (c.pc a.1) a.2 m p := move_of_step hs
    rw [hi, hc] at hmove
    exact absurd hmove hq
  · simpa [Ne.symm hi] using hc

theorem not_move_running {i : ℕ} : ¬Move n m (.worker i) .running a m' p' := by
  intro h
  cases h

theorem not_move_returned : ¬Move n m .main .returned a m' p' := by
  intro h
  cases h

theorem leadsTo_running {r : (machine n).Run} (hfair : Fair r) {i : ℕ} (hi : i < n) :
    r.LeadsTo (fun c ↦ c.pc .main = .returned) fun c ↦ c.pc (.worker i) = .running := by
  have hserved : r.Served (takes (.worker i)) fun c ↦
      c.pc .main = .returned ∧ c.pc (.worker i) ≠ .running := by
    refine (hfair (.worker i)).served ?_
    rintro c hc ⟨hmain, hne⟩
    obtain ⟨hworkers, htoken⟩ := token_of_returned hc hmain
    have hspawned := ((coherent_of_reachable hc).1.workers _ hworkers).2
    have hknows := (coherent_of_reachable hc).2 (.worker i)
    have hpark := htoken i
    refine System.enabled_of_step (A := takes (.worker i)) (a := .step) rfl ?_
    generalize c.pc (.worker i) = p at hne hknows hpark
    cases p with
    | unborn => simp [system, step, workerStep, hspawned, hi]
    | check => simp [system, step, workerStep, hworkers]
    | park => simp [system, step, workerStep, hpark rfl]
    | enter => simp [system, step, workerStep, hworkers, hi]
    | running => exact absurd rfl hne
    | _ => exact absurd hknows id
  intro k hk
  by_cases hrunning : (r.state k).pc (.worker i) = .running
  · exact ⟨k, le_rfl, hrunning⟩
  have hleads : r.LeadsTo (fun c ↦ c.pc .main = .returned ∧ c.pc (.worker i) ≠ .running)
      fun c ↦ c.pc (.worker i) = .running := by
    refine System.leadsTo_of_agent Startup.toRun hserved (fun _ h ↦ by rw [h]) ?_ ?_
    · rintro c a m p hc ⟨hmain, hne⟩ hs
      have hcd := System.machine_step hs
      have hworkers := (token_of_returned hc hmain).1
      have hknows := (coherent_of_reachable hc).2 (.worker i)
      have hd := coherent_of_reachable (.step hc trivial hcd)
      rcases (move_of_step (i := .worker i) hs).toRun hknows (by simp [hworkers]) with h | h | h
      · exact Or.inl (by simpa using h)
      · have hfalse : Knows n (.worker i) m .panicked := hd.agent (by simpa using h)
        exact absurd hfalse id
      · by_cases hp : p = .running
        · exact Or.inl (by simpa using hp)
        · exact Or.inr ⟨⟨by simpa using hmain, by simpa using hp⟩, Or.inl h⟩
    · rintro c j a m p hc ⟨hmain, hne⟩ hj hs
      have hcd := System.machine_step hs
      exact Or.inr ⟨stable_of_final not_move_returned c (j, a) _ hc hmain hcd,
        by simpa [hj.symm] using hne⟩
  exact hleads k ⟨hk, hrunning⟩

/-- **All workers start** in a fair run, or a system call of `new` fails. -/
theorem running_of_fair (r : (machine n).Run) (hfair : Fair r) :
    ∃ k, (r.state k).pc .main = .panicked ∨
      (r.state k).pc .main = .returned ∧ ∀ i, i < n → (r.state k).pc (.worker i) = .running := by
  obtain ⟨k, hk⟩ : ∃ k, Ended (r.state k) := by
    by_cases h : Ended (r.state 0)
    · exact ⟨0, h⟩
    · obtain ⟨k, -, hk⟩ := leadsTo_ended hfair 0 h
      exact ⟨k, hk⟩
  rcases hk with hk | hk
  swap
  · exact ⟨k, Or.inl hk⟩
  obtain ⟨l, hl, hrunning⟩ := LeadsTo.forall_lt (fun i hi ↦ leadsTo_running hfair hi)
    (fun i ↦ stable_of_final not_move_running) k hk
  exact ⟨l, Or.inr ⟨r.stable (stable_of_final not_move_returned) hl hk, hrunning⟩⟩

/-- Two workers. Worker 0 looks for the slice before it is there, wakes up spuriously and parks
again; worker 1 does not park. -/
def twoWorkers : List (Agent × Label) :=
  [(.main, .step), (.main, .step), (.worker 0, .step), (.worker 0, .step), (.worker 0, .spurious),
    (.worker 0, .step), (.main, .step), (.main, .step), (.main, .step), (.worker 1, .step),
    (.worker 1, .step), (.worker 1, .step), (.main, .step), (.main, .step), (.worker 0, .step),
    (.worker 0, .step), (.worker 0, .step), (.main, .step)]

def twoStarted : State := ((machine 2).exec .new twoWorkers).get (by decide)

theorem exec_twoWorkers : (machine 2).exec .new twoWorkers = some twoStarted :=
  (Option.some_get _).symm

theorem starts_twoStarted : twoStarted.pc .main = .returned ∧ Starts 2 twoStarted :=
  ⟨rfl, starts_of_reachable twoStarted (.of_exec (.init rfl) exec_twoWorkers)⟩

def twoRun : (machine 2).Run := .ofExec rfl exec_twoWorkers

theorem fair_twoRun : Fair twoRun := by
  refine fun i ↦ (stronglyFair_ofExec rfl exec_twoWorkers ?_).weaklyFair
  rintro ⟨⟨j, a⟩, d, ha, hcd⟩
  cases ha
  obtain ⟨m, p, hs, -⟩ := System.machine_step_eq_some.mp hcd
  have hmove : Move 2 twoStarted.shared i (twoStarted.pc i) .step m p := move_of_step hs
  cases i with
  | main => exact not_move_returned hmove
  | worker k =>
    by_cases hk : k < 2
    · obtain rfl | rfl : k = 0 ∨ k = 1 := by omega
      · exact not_move_running hmove
      · exact not_move_running hmove
    · -- a third worker is never spawned
      have hmem : Agent.worker k ∉ twoWorkers.map Prod.fst := by
        simp [twoWorkers]
        omega
      have hpc : twoStarted.pc (.worker k) = .unborn := System.exec_pc hmem exec_twoWorkers
      rw [hpc] at hmove
      cases hmove with
      | start h => exact hk h

theorem running_twoRun : ∃ k, (twoRun.state k).pc .main = .panicked ∨
    (twoRun.state k).pc .main = .returned ∧
      ∀ i, i < 2 → (twoRun.state k).pc (.worker i) = .running :=
  running_of_fair twoRun fair_twoRun

end ArcDischarge.Startup
