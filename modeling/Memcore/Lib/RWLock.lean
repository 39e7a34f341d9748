import Mathlib.Order.WellFounded
import Memcore.Lib.Run

/-!
# Readers-writer locks

Any number of threads take and release locks of `sync.RWMutex`, each following a script. A writer first
queues for the lock, then announces itself, and then waits for the readers that are inside; from its
announcement on, new readers wait, and those that waited get the lock when it unlocks. A `sync.Mutex`
is such a lock with writers only.

Threads that take their locks in ascending order, and give them back in reverse, never block one
another in a circle (`no_deadlock`), never ask for a lock they have (`request_new`), and while one of
them has something to do, one of them can do it (`progress`).
-/

namespace RWLock

/-! ## Threads -/

inductive Mode where
  | read
  | write
deriving DecidableEq

inductive Instr (L : Type) where
  | lock (l : L) (mode : Mode)
  | unlock (l : L)
deriving DecidableEq

/-- Where a thread is with the lock it takes. -/
inductive Status (L : Type) where
  | running
  /-- `RLock`, behind a writer. -/
  | readWait (l : L)
  /-- `Lock`, behind another writer. -/
  | writeQueued (l : L)
  /-- `Lock`, behind the readers that are inside. -/
  | writePending (l : L)
deriving DecidableEq

/-- A thread: the locks it has, the last one first, and what is left of its script. -/
structure Thread (L : Type) where
  status : Status L
  held : List (L × Mode)
  script : List (Instr L)

variable {L τ : Type}

namespace Thread

/-- Nothing to do. -/
def idle : Thread L := ⟨.running, [], []⟩

/-- What is left to do, with the lock it waits for. -/
def todo (th : Thread L) : List (Instr L) :=
  match th.status with
  | .running => th.script
  | .readWait l => .lock l .read :: th.script
  | .writeQueued l | .writePending l => .lock l .write :: th.script

/-- The thread has the lock and goes on. -/
def acquire (th : Thread L) (l : L) (mode : Mode) : Thread L :=
  { th with status := .running, held := (l, mode) :: th.held }

/-- A writer has announced itself, or is inside. -/
def Claims (th : Thread L) (l : L) : Prop :=
  th.status = .writePending l ∨ (l, .write) ∈ th.held

theorem Claims.of_running {th : Thread L} {l : L} (h : th.Claims l) (hrun : th.status = .running) :
    (l, .write) ∈ th.held := by
  rcases h with h | h
  · cases hrun.symm.trans h
  · exact h

theorem todo_of_running {th : Thread L} (h : th.status = .running) : th.todo = th.script := by
  rw [todo, h]

variable [LinearOrder L]

/-- A reader that waits for `l` gets it. -/
def letIn (l : L) (th : Thread L) : Thread L :=
  if th.status = .readWait l then th.acquire l .read else th

end Thread

/-- The threads by their names. -/
abbrev State (τ L : Type) := τ → Thread L

/-- `u` stands in the way of `t`: it has the lock `t` waits for, or is before it in the queue. -/
def InWay (s : State τ L) (u t : τ) : Prop :=
  match (s t).status with
  | .running => False
  | .readWait l | .writeQueued l => (s u).Claims l
  | .writePending l => (l, .read) ∈ (s u).held

/-- The lock a thread waits for. -/
def Thread.waitsFor (th : Thread L) : Option L :=
  match th.status with
  | .running => none
  | .readWait l | .writeQueued l | .writePending l => some l

theorem waits_of_inWay {s : State τ L} {u t : τ} (h : InWay s u t) :
    ∃ l, (s t).waitsFor = some l := by
  unfold InWay at h
  unfold Thread.waitsFor
  cases hs : (s t).status with
  | running =>
    rw [hs] at h
    exact h.elim
  | readWait l | writeQueued l | writePending l => exact ⟨l, rfl⟩

/-- All threads of the set are blocked by threads of the set. -/
def Deadlocked (s : State τ L) (S : Set τ) : Prop := S.Nonempty ∧ ∀ t ∈ S, ∃ u ∈ S, InWay s u t

/-! ## Steps -/

inductive Event (τ : Type) where
  | start (t : τ)
  | request (t : τ)
  | announce (t : τ)
  | grant (t : τ)
  | release (t : τ)

variable [LinearOrder L] [DecidableEq τ]

/-- The state after `t` unlocks `l`. -/
def released (s : State τ L) (t : τ) (l : L) (mode : Mode) (held : List (L × Mode))
    (script : List (Instr L)) : State τ L :=
  let s := Function.update s t ⟨.running, held, script⟩
  match mode with
  | .read => s
  | .write => fun u => (s u).letIn l

/-- A thread does something. Scripts to start with are taken from `Script`. -/
inductive Step (Script : List (Instr L) → Prop) : State τ L → Event τ → State τ L → Prop where
  | start {s : State τ L} {t : τ} {script : List (Instr L)} (idle : s t = .idle)
      (allowed : Script script) :
      Step Script s (.start t) (Function.update s t ⟨.running, [], script⟩)
  | readLock {s : State τ L} {t : τ} {l : L} {script : List (Instr L)}
      (running : (s t).status = .running) (next : (s t).script = .lock l .read :: script)
      (free : ∀ u, ¬ (s u).Claims l) :
      Step Script s (.request t) (Function.update s t ({ s t with script }.acquire l .read))
  | readWait {s : State τ L} {t : τ} {l : L} {script : List (Instr L)}
      (running : (s t).status = .running) (next : (s t).script = .lock l .read :: script)
      (claimed : ∃ u, (s u).Claims l) :
      Step Script s (.request t) (Function.update s t { s t with status := .readWait l, script })
  | writeLock {s : State τ L} {t : τ} {l : L} {script : List (Instr L)}
      (running : (s t).status = .running) (next : (s t).script = .lock l .write :: script) :
      Step Script s (.request t) (Function.update s t { s t with status := .writeQueued l, script })
  | announce {s : State τ L} {t : τ} {l : L} (queued : (s t).status = .writeQueued l)
      (free : ∀ u, ¬ (s u).Claims l) :
      Step Script s (.announce t) (Function.update s t { s t with status := .writePending l })
  | grant {s : State τ L} {t : τ} {l : L} (pending : (s t).status = .writePending l)
      (free : ∀ u, (l, .read) ∉ (s u).held) :
      Step Script s (.grant t) (Function.update s t ((s t).acquire l .write))
  | release {s : State τ L} {t : τ} {l : L} {mode : Mode} {held : List (L × Mode)}
      {script : List (Instr L)} (running : (s t).status = .running)
      (next : (s t).script = .unlock l :: script) (has : (s t).held = (l, mode) :: held) :
      Step Script s (.release t) (released s t l mode held script)

/-! ## Ascending scripts -/

/-- The locks a thread has after a script, if it takes them in ascending order and gives them back in
reverse. -/
def after : List (L × Mode) → List (Instr L) → Option (List (L × Mode))
  | held, [] => some held
  | held, .lock l mode :: script =>
    if ∀ k ∈ held, k.1 < l then after ((l, mode) :: held) script else none
  | [], .unlock _ :: _ => none
  | (k, _) :: held, .unlock l :: script => if k = l then after held script else none

theorem after_lock {held r : List (L × Mode)} {l : L} {mode : Mode} {script : List (Instr L)} :
    after held (.lock l mode :: script) = some r ↔
      (∀ k ∈ held, k.1 < l) ∧ after ((l, mode) :: held) script = some r := by
  rw [after]
  split
  next h => exact ⟨fun hr => ⟨h, hr⟩, fun hr => hr.2⟩
  next h => exact ⟨nofun, fun hr => absurd hr.1 h⟩

theorem after_unlock {held r : List (L × Mode)} {l : L} {script : List (Instr L)}
    (h : after held (.unlock l :: script) = some r) :
    ∃ mode held', held = (l, mode) :: held' ∧ after held' script = some r := by
  cases held with
  | nil => cases h
  | cons k held =>
    obtain ⟨k, mode⟩ := k
    rw [after] at h
    split at h
    next hk =>
      subst hk
      exact ⟨mode, held, rfl, h⟩
    next => cases h

theorem after_append : ∀ (held : List (L × Mode)) (a b : List (Instr L)),
    after held (a ++ b) = (after held a).bind (after · b)
  | _, [], _ => rfl
  | held, .lock l mode :: a, b => by
      rw [List.cons_append, after, after]
      split
      · exact after_append _ a b
      · rfl
  | [], .unlock _ :: _, _ => rfl
  | (k, _) :: held, .unlock l :: a, b => by
      rw [List.cons_append, after, after]
      split
      · exact after_append _ a b
      · rfl

/-- One after the other. -/
theorem after_flatMap {α : Type} {f : α → List (Instr L)} {held : List (L × Mode)} {as : List α}
    (h : ∀ a ∈ as, after held (f a) = some held) : after held (as.flatMap f) = some held := by
  induction as with
  | nil => rfl
  | cons a as ih =>
    obtain ⟨ha, has⟩ := List.forall_mem_cons.mp h
    rw [List.flatMap_cons, after_append, ha]
    exact ih has

/-- Lock all of `ls`, do `inner`, and unlock them in reverse. -/
def bracket (mode : Mode) (ls : List L) (inner : List (Instr L)) : List (Instr L) :=
  ls.map (.lock · mode) ++ (inner ++ ls.reverse.map .unlock)

theorem after_bracket {mode : Mode} {inner : List (Instr L)} :
    ∀ {ls : List L}, ls.Pairwise (· < ·) → ∀ {held : List (L × Mode)},
      (∀ k ∈ held, ∀ l ∈ ls, k.1 < l) →
      (after ((ls.map (·, mode)).reverse ++ held) inner = some ((ls.map (·, mode)).reverse ++ held)) →
      after held (bracket mode ls inner) = some held
  | [], _, held, _, hinner => by
      simpa [bracket] using hinner
  | l :: ls, hls, held, hheld, hinner => by
      obtain ⟨hl, hls⟩ := List.pairwise_cons.mp hls
      have hsplit : bracket mode (l :: ls) inner
          = .lock l mode :: (bracket mode ls inner ++ [.unlock l]) := by
        simp [bracket]
      have hrest : after ((l, mode) :: held) (bracket mode ls inner) = some ((l, mode) :: held) := by
        refine after_bracket hls (fun k hk l' hl' => ?_) ?_
        · rcases List.mem_cons.mp hk with rfl | hk
          · exact hl l' hl'
          · exact hheld k hk l' (List.mem_cons_of_mem _ hl')
        · simpa using hinner
      rw [hsplit, after_lock]
      refine ⟨fun k hk => hheld k hk l List.mem_cons_self, ?_⟩
      rw [after_append, hrest, Option.bind_some, after, if_pos rfl]
      rfl

/-- The thread keeps to the order, and ends with no locks. -/
def Thread.Ordered (th : Thread L) : Prop := after th.held th.todo = some []

theorem Thread.Ordered.acquire {th : Thread L} {l : L} {mode : Mode} {script : List (Instr L)}
    (h : th.Ordered) (htodo : th.todo = .lock l mode :: script) :
    after ((l, mode) :: th.held) script = some [] := by
  unfold Ordered at h
  rw [htodo] at h
  exact (after_lock.mp h).2

/-- Every thread keeps to the order, and a reader waits only where there is a writer. -/
structure Valid (s : State τ L) : Prop where
  ordered : ∀ t, (s t).Ordered
  behind : ∀ t l, (s t).status = .readWait l → ∃ u, (s u).Claims l

theorem Valid.update {s : State τ L} (h : Valid s) (t : τ) (th : Thread L) (hord : th.Ordered)
    (hkeeps : ∀ l, (s t).Claims l → th.Claims l)
    (hwait : ∀ l, th.status = .readWait l → ∃ u, (s u).Claims l) :
    Valid (Function.update s t th) := by
  have hclaims {l : L} (hl : ∃ u, (s u).Claims l) : ∃ u, (Function.update s t th u).Claims l := by
    obtain ⟨u, hu⟩ := hl
    refine ⟨u, ?_⟩
    by_cases hut : u = t
    · subst hut
      rw [Function.update_self]
      exact hkeeps l hu
    · rwa [Function.update_of_ne hut]
  refine ⟨fun u => ?_, fun u l hu => ?_⟩
  · by_cases hut : u = t
    · subst hut
      rwa [Function.update_self]
    · rw [Function.update_of_ne hut]
      exact h.ordered u
  · by_cases hut : u = t
    · subst hut
      rw [Function.update_self] at hu
      exact hclaims (hwait l hu)
    · rw [Function.update_of_ne hut] at hu
      exact hclaims (h.behind u l hu)

theorem letIn_ordered {th : Thread L} (h : th.Ordered) (l : L) : (th.letIn l).Ordered := by
  unfold Thread.letIn
  split
  next hwait =>
    have htodo : th.todo = .lock l .read :: th.script := by rw [Thread.todo, hwait]
    exact h.acquire htodo
  next => exact h

theorem letIn_claims {th : Thread L} {k : L} (h : th.Claims k) (l : L) : (th.letIn l).Claims k := by
  unfold Thread.letIn
  split
  next hwait =>
    rcases h with h | h
    · cases hwait.symm.trans h
    · exact .inr (List.mem_cons_of_mem _ h)
  next => exact h

theorem letIn_wait {th : Thread L} {k l : L} (h : (th.letIn l).status = .readWait k) :
    th.status = .readWait k ∧ k ≠ l := by
  unfold Thread.letIn at h
  split at h
  next => cases h
  next hwait =>
    refine ⟨h, ?_⟩
    rintro rfl
    exact hwait h

theorem Valid.release {s : State τ L} (h : Valid s) {t : τ} {l : L} {mode : Mode}
    {held : List (L × Mode)} {script : List (Instr L)} (hrun : (s t).status = .running)
    (hnext : (s t).script = .unlock l :: script) (hhas : (s t).held = (l, mode) :: held) :
    Valid (released s t l mode held script) := by
  have hord : (Thread.mk .running held script).Ordered := by
    have hord := h.ordered t
    unfold Thread.Ordered at hord
    rw [Thread.todo_of_running hrun, hnext, hhas] at hord
    obtain ⟨_, _, heq, hafter⟩ := after_unlock hord
    cases heq
    exact hafter
  -- the locks it still has as a writer
  have hkeeps (k : L) (hk : (s t).Claims k) (hne : (k, Mode.write) ≠ (l, mode)) :
      (Thread.mk .running held script).Claims k := by
    have hmem := hk.of_running hrun
    rw [hhas] at hmem
    exact .inr ((List.mem_cons.mp hmem).resolve_left hne)
  cases mode with
  | read => exact h.update t _ hord (fun k hk => hkeeps k hk nofun) nofun
  | write =>
    refine ⟨fun u => letIn_ordered ?_ l, fun u k hu => ?_⟩
    · by_cases hut : u = t
      · subst hut
        rwa [Function.update_self]
      · rw [Function.update_of_ne hut]
        exact h.ordered u
    · obtain ⟨hwait, hne⟩ := letIn_wait hu
      have hut : u ≠ t := by
        rintro rfl
        rw [Function.update_self] at hwait
        cases hwait
      rw [Function.update_of_ne hut] at hwait
      obtain ⟨v, hv⟩ := h.behind u k hwait
      refine ⟨v, letIn_claims ?_ l⟩
      by_cases hvt : v = t
      · subst hvt
        rw [Function.update_self]
        exact hkeeps k hv (by simpa using hne)
      · rwa [Function.update_of_ne hvt]

/-- **A step keeps the order.** -/
theorem Valid.step {Script : List (Instr L) → Prop}
    (hscript : ∀ script, Script script → after [] script = some []) {s s' : State τ L}
    {e : Event τ} (h : Valid s) (hstep : Step Script s e s') : Valid s' := by
  -- asking for a lock changes where it stands, not what is left to do
  have hasks {t : τ} {l : L} {mode : Mode} {script : List (Instr L)} {status : Status L}
      (hrun : (s t).status = .running) (hnext : (s t).script = .lock l mode :: script)
      (htodo : (Thread.mk status (s t).held script).todo = .lock l mode :: script) :
      (Thread.mk status (s t).held script).Ordered := by
    have hord := h.ordered t
    unfold Thread.Ordered at hord ⊢
    rwa [Thread.todo_of_running hrun, hnext, ← htodo] at hord
  cases hstep with
  | @start t script hidle hallowed =>
    refine h.update t _ (hscript _ hallowed) (fun l hl => ?_) (fun l hl => by cases hl)
    rw [hidle] at hl
    rcases hl with hl | hl <;> cases hl
  | @readLock t l script hrun hnext hfree =>
    refine h.update t _ ?_ (fun k hk => ?_) (fun k hk => by cases hk)
    · exact (h.ordered t).acquire ((Thread.todo_of_running hrun).trans hnext)
    · exact .inr (List.mem_cons_of_mem _ (hk.of_running hrun))
  | @readWait t l script hrun hnext hclaimed =>
    refine h.update t _ (hasks hrun hnext rfl) (fun k hk => .inr (hk.of_running hrun))
      (fun k hk => ?_)
    cases hk
    exact hclaimed
  | @writeLock t l script hrun hnext =>
    exact h.update t _ (hasks hrun hnext rfl) (fun k hk => .inr (hk.of_running hrun))
      (fun k hk => by cases hk)
  | @announce t l hqueued hfree =>
    refine h.update t _ ?_ (fun k hk => ?_) (fun k hk => by cases hk)
    · have hord := h.ordered t
      unfold Thread.Ordered Thread.todo at hord ⊢
      rwa [hqueued] at hord
    · rcases hk with hk | hk
      · cases hqueued.symm.trans hk
      · exact .inr hk
  | @grant t l hpending hfree =>
    have htodo : (s t).todo = .lock l .write :: (s t).script := by rw [Thread.todo, hpending]
    refine h.update t _ ((h.ordered t).acquire htodo) (fun k hk => ?_) (fun k hk => by cases hk)
    rcases hk with hk | hk
    · cases hpending.symm.trans hk
      exact .inr List.mem_cons_self
    · exact .inr (List.mem_cons_of_mem _ hk)
  | release hrun hnext hhas => exact h.release hrun hnext hhas

/-- The threads before they do anything. -/
def State.start : State τ L := fun _ => .idle

/-- **A run keeps the order.** -/
theorem Valid.run {Script : List (Instr L) → Prop}
    (hscript : ∀ script, Script script → after [] script = some []) {s : State τ L}
    {es : List (Event τ)} (h : Run (Step Script) .start es s) : Valid s :=
  h.invariant Valid ⟨fun _ => rfl, nofun⟩ fun hs hstep => hs.step hscript hstep

/-! ## No deadlocks -/

theorem held_lt_of_waits {th : Thread L} (h : th.Ordered) {l : L} (hl : th.waitsFor = some l) :
    ∀ k ∈ th.held, k.1 < l := by
  unfold Thread.Ordered Thread.todo at h
  unfold Thread.waitsFor at hl
  cases hs : th.status with
  | running =>
    rw [hs] at hl
    cases hl
  | readWait k | writeQueued k | writePending k =>
    rw [hs] at hl h
    cases hl
    exact (after_lock.mp h).1

omit [DecidableEq τ] in
/-- **No set of threads is deadlocked.** -/
theorem no_deadlock [WellFoundedGT L] {s : State τ L} (h : Valid s) (S : Set τ) :
    ¬ Deadlocked s S := by
  rintro ⟨⟨t₀, ht₀⟩, hblocked⟩
  have hwaits (t : τ) (ht : t ∈ S) : ∃ l, (s t).waitsFor = some l := by
    obtain ⟨u, -, hu⟩ := hblocked t ht
    exact waits_of_inWay hu
  -- the greatest lock that one of them waits for
  obtain ⟨l₀, hl₀⟩ := hwaits t₀ ht₀
  obtain ⟨l, ⟨t, ht, hl⟩, hmax⟩ := wellFounded_gt.has_min
    {l : L | ∃ t ∈ S, (s t).waitsFor = some l} ⟨l₀, t₀, ht₀, hl₀⟩
  have hnone {u : τ} (hu : u ∈ S) {mode : Mode} (hheld : (l, mode) ∈ (s u).held) : False := by
    obtain ⟨k, hk⟩ := hwaits u hu
    exact hmax k ⟨u, hu, hk⟩ (held_lt_of_waits (h.ordered u) hk _ hheld)
  -- nobody of them has it, so a writer stands in the way that waits for readers that nobody is
  have hpending {u : τ} (hu : u ∈ S) (hs : (s u).status = .writePending l) : False := by
    obtain ⟨v, hv, hway⟩ := hblocked u hu
    unfold InWay at hway
    rw [hs] at hway
    exact hnone hv hway
  have hclaims {u : τ} (hu : u ∈ S) (hc : (s u).Claims l) : False := by
    rcases hc with hc | hc
    · exact hpending hu hc
    · exact hnone hu hc
  obtain ⟨u, hu, hway⟩ := hblocked t ht
  unfold InWay at hway
  unfold Thread.waitsFor at hl
  cases hs : (s t).status with
  | running =>
    rw [hs] at hl
    cases hl
  | readWait k | writeQueued k =>
    rw [hs] at hl hway
    cases hl
    exact hclaims hu hway
  | writePending k =>
    rw [hs] at hl
    cases hl
    exact hpending ht hs

omit [DecidableEq τ] in
/-- **No thread asks for a lock it has.** -/
theorem request_new {s : State τ L} (h : Valid s) {t : τ} (hrun : (s t).status = .running) {l : L}
    {mode : Mode} {script : List (Instr L)} (hnext : (s t).script = .lock l mode :: script)
    (mode' : Mode) : (l, mode') ∉ (s t).held := by
  intro hmem
  have hord := h.ordered t
  unfold Thread.Ordered at hord
  rw [Thread.todo_of_running hrun, hnext] at hord
  exact lt_irrefl l ((after_lock.mp hord).1 _ hmem)

theorem running_step {Script : List (Instr L) → Prop} {s : State τ L} (h : Valid s) {t : τ}
    (hrun : (s t).status = .running) (hmore : (s t).script ≠ []) :
    ∃ e s', Step Script s e s' ∧ ∀ t, e ≠ .start t := by
  obtain ⟨i, script, hnext⟩ := List.exists_cons_of_ne_nil hmore
  cases i with
  | lock l mode =>
    cases mode with
    | read =>
      by_cases hfree : ∃ u, (s u).Claims l
      · exact ⟨_, _, .readWait hrun hnext hfree, nofun⟩
      · exact ⟨_, _, .readLock hrun hnext (not_exists.mp hfree), nofun⟩
    | write => exact ⟨_, _, .writeLock hrun hnext, nofun⟩
  | unlock l =>
    have hord := h.ordered t
    unfold Thread.Ordered at hord
    rw [Thread.todo_of_running hrun, hnext] at hord
    obtain ⟨mode, held, hheld, -⟩ := after_unlock hord
    exact ⟨_, _, .release hrun hnext hheld, nofun⟩

/-- **While a thread has something to do, a thread can do something.** -/
theorem progress [WellFoundedGT L] {Script : List (Instr L) → Prop} {s : State τ L} (h : Valid s)
    {t : τ} (ht : s t ≠ .idle) : ∃ e s', Step Script s e s' ∧ ∀ t, e ≠ .start t := by
  by_contra hstuck
  -- otherwise all threads that are not idle would block one another
  refine no_deadlock h {t | s t ≠ .idle} ⟨⟨t, ht⟩, fun t ht => ?_⟩
  have hidle {u : τ} (hu : s u = .idle) (l : L) : ¬ (s u).Claims l ∧ (l, Mode.read) ∉ (s u).held := by
    rw [hu]
    refine ⟨?_, nofun⟩
    rintro (h | h) <;> cases h
  unfold InWay
  cases hs : (s t).status with
  | running =>
    refine absurd ?_ ht
    have hscript : (s t).script = [] := by
      by_contra hmore
      exact hstuck (running_step h hs hmore)
    have hheld := h.ordered t
    unfold Thread.Ordered at hheld
    rw [Thread.todo_of_running hs, hscript] at hheld
    cases hth : s t with
    | mk status held script =>
      rw [hth] at hs hscript hheld
      cases hs
      cases hscript
      cases hheld
      rfl
  | readWait l =>
    obtain ⟨u, hu⟩ := h.behind t l hs
    exact ⟨u, fun hidl => (hidle hidl l).1 hu, hu⟩
  | writeQueued l =>
    by_cases hfree : ∃ u, (s u).Claims l
    · obtain ⟨u, hu⟩ := hfree
      exact ⟨u, fun hidl => (hidle hidl l).1 hu, hu⟩
    · exact absurd ⟨_, _, .announce hs (not_exists.mp hfree), nofun⟩ hstuck
  | writePending l =>
    by_cases hfree : ∃ u, (l, Mode.read) ∈ (s u).held
    · obtain ⟨u, hu⟩ := hfree
      exact ⟨u, fun hidl => (hidle hidl l).2 hu, hu⟩
    · exact absurd ⟨_, _, .grant hs (not_exists.mp hfree), nofun⟩ hstuck

end RWLock
