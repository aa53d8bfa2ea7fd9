import Mathlib
/-
  Serai.Mini.Activation — mini Serai (mini/src/lib.rs): a Serai thread including the batches
  a processor thread publishes, and the activation of a new key `BATCH_FTL` blocks after the
  first batch's block.

  The two threads share the ticks left, the active keys, the mempool, the channel of events
  and the list of all events. Each step of a thread is what it does under one lock, or one
  channel operation, with the thread-local computation around it: the Serai thread's tick
  (the test and saturating decrement of `remaining_ticks`), its handling of the mempool
  (removing the first batch, activating the queued key, sending and recording the event,
  all under the mempool's write lock), and the processor's publication of a batch (whose
  keys it reads while holding the mempool's write lock), its `exhausted` test and its
  `recv`. A `recv` on an empty channel blocks while the Serai thread runs and fails once it
  has returned (its sender dropped). `Reach` is every interleaving of the two threads, from
  `Serai::new(ticks, queued_key)` and `Processor::new(serai, blocks)`. Blocks are `u64` in
  the source and natural numbers here: a run publishes fewer than `blocks` of them.

  - `ftl_solves_activation_race`: in every reachable state, the `i`-th event is the batch of
    block `i` with exactly the keys that are active at block `i`: the wait of `BATCH_FTL`
    blocks behind the last included batch keeps the processor from publishing a batch at or
    after the new key's activation before that key is active.
  - `eager_activation_race`: the test's eager processor, which publishes without that wait,
    can have batch 3 included without the key active at block 3.
-/

namespace Serai.Mini

/-- `Batch`. -/
structure Batch where
  block : ℕ
  keys : List ℕ
  deriving DecidableEq, Repr

/-- `Event`; `__Ignore` is never sent. -/
inductive Event where
  | includedBatch (batch : Batch)
  | ignore
  deriving DecidableEq, Repr

/-- `BATCH_FTL`. -/
abbrev batchFtl : ℕ := 3

/-- Where the Serai thread is: at its loop's test, holding a tick it took, or returned. -/
inductive SeraiAt where
  | tick
  | process
  | done
  deriving DecidableEq, Repr

/-- Where the processor thread is: at the test of its `while` for block `b` (or past the
    last block), at its `recv`, or returned. -/
inductive ProcessorAt where
  | loop
  | recv
  | done
  deriving DecidableEq, Repr

/-- The shared state and both threads' locals: the Serai thread's `queued_key`, the
    processor's `b` and `last_finalized_block`. `events` holds what was sent and not yet
    received. -/
structure Stack where
  remainingTicks : ℕ
  activeKeys : List (ℕ × ℕ)
  mempoolBatches : List Batch
  events : List Event
  allEventsUnsafe : List Event
  queuedKey : Bool
  seraiAt : SeraiAt
  b : ℕ
  lastFinalizedBlock : ℕ
  processorAt : ProcessorAt
  deriving DecidableEq

/-- `Serai::new(ticks, queued_key)`, then `Processor::new(serai, blocks)`. -/
def start (ticks : ℕ) (queuedKey : Bool) : Stack :=
  ⟨ticks, [(0, 0)], [], [], [], queuedKey, .tick, 0, 0, .loop⟩

/-- The keys a batch of block `b` carries: the ids of the active keys activated by `b`. -/
def keysAt (activeKeys : List (ℕ × ℕ)) (b : ℕ) : List ℕ :=
  activeKeys.filterMap fun (activationBlock, id) => if b ≥ activationBlock then some id else none

/-- One step of the Serai thread. -/
def seraiStep (w : Stack) : Option Stack :=
  match w.seraiAt with
  | .tick =>
    -- `ticking` is read before the saturating decrement
    some { w with remainingTicks := w.remainingTicks - 1, seraiAt := (if w.remainingTicks ≠ 0 then .process else .done) }
  | .process =>
    match w.mempoolBatches with
    | [] => some { w with seraiAt := .tick }
    | batch :: rest =>
      let activeKeys :=
        if w.queuedKey then w.activeKeys ++ [(batch.block + batchFtl, w.activeKeys.length)] else w.activeKeys
      some { w with
        mempoolBatches := rest
        activeKeys := activeKeys
        queuedKey := false
        events := w.events ++ [.includedBatch batch]
        allEventsUnsafe := w.allEventsUnsafe ++ [.includedBatch batch]
        seraiAt := .tick }
  | .done => none

/-- One step of `Processor::new`'s thread over `blocks` blocks; `none` when it has returned,
    or is blocked in `recv` on an empty channel whose sender lives. -/
def processorStep (blocks : ℕ) (w : Stack) : Option Stack :=
  match w.processorAt with
  | .loop =>
    if w.b < blocks then
      if w.b ≥ w.lastFinalizedBlock + batchFtl then
        -- `if serai.exhausted() { return serai; }`
        some { w with processorAt := (if w.remainingTicks = 0 then .done else .recv) }
      else
        some { w with mempoolBatches := w.mempoolBatches ++ [⟨w.b, keysAt w.activeKeys w.b⟩], b := w.b + 1 }
    else some { w with processorAt := .done }
  | .recv =>
    match w.events with
    | event :: rest =>
      let lastFinalizedBlock := match event with
        | .includedBatch batch => batch.block
        | .ignore => w.lastFinalizedBlock
      some { w with events := rest, lastFinalizedBlock := lastFinalizedBlock, processorAt := .loop }
    | [] => if w.seraiAt = .done then some { w with processorAt := .done } else none
  | .done => none

/-- The two threads. -/
inductive Thread where
  | serai
  | processor
  deriving DecidableEq, Repr

/-- A step of one thread, the processor's being `processor`. -/
def step (processor : Stack → Option Stack) (w : Stack) : Thread → Option Stack
  | .serai => seraiStep w
  | .processor => processor w

/-- The states of every interleaving of the Serai thread and a processor thread. -/
inductive Reach (processor : Stack → Option Stack) (ticks : ℕ) (queuedKey : Bool) : Stack → Prop
  | start : Reach processor ticks queuedKey (start ticks queuedKey)
  | step {w w' : Stack} (t : Thread) : Reach processor ticks queuedKey w → step processor w t = some w' →
      Reach processor ticks queuedKey w'

/-- The threads' steps in the order a schedule gives, until one cannot step. -/
def runThreads (processor : Stack → Option Stack) (w : Stack) : List Thread → Option Stack
  | [] => some w
  | t :: ts => (step processor w t).bind fun w' => runThreads processor w' ts

theorem Reach.of_runThreads {processor : Stack → Option Stack} {ticks : ℕ} {queuedKey : Bool} :
    ∀ {w w' : Stack} (ts : List Thread), Reach processor ticks queuedKey w →
      runThreads processor w ts = some w' → Reach processor ticks queuedKey w'
  | _, _, [], hw, h => by
    cases h
    exact hw
  | w, w', t :: ts, hw, h => by
    simp only [runThreads, Option.bind_eq_some_iff] at h
    obtain ⟨w₁, h₁, hrest⟩ := h
    exact Reach.of_runThreads ts (hw.step t h₁) hrest

/-! ## Where every batch is -/

/-- The batch of block `i`: with the new key from block `BATCH_FTL` on, when one is queued. -/
def batchFor (queuedKey : Bool) (i : ℕ) : Batch :=
  ⟨i, if queuedKey ∧ batchFtl ≤ i then [0, 1] else [0]⟩

/-- The active keys after `k` batches were included. -/
def activeFor (queuedKey : Bool) (k : ℕ) : List (ℕ × ℕ) :=
  if queuedKey ∧ 0 < k then [(0, 0), (batchFtl, 1)] else [(0, 0)]

/-- The batches of blocks `k .. b` are in the mempool, those before `k` were included in
    order and the first `r` of their events received, the last received one's block being
    the processor's `last_finalized_block`; and the processor published no block past it
    by `BATCH_FTL` or more. -/
structure Inv (queuedKey : Bool) (w : Stack) : Prop where
  included : w.allEventsUnsafe = (List.range w.allEventsUnsafe.length).map fun i => .includedBatch (batchFor queuedKey i)
  included_le : w.allEventsUnsafe.length ≤ w.b
  mempool : w.mempoolBatches =
    (List.range' w.allEventsUnsafe.length (w.b - w.allEventsUnsafe.length)).map (batchFor queuedKey)
  activeKeys : w.activeKeys = activeFor queuedKey w.allEventsUnsafe.length
  queued : w.queuedKey = (queuedKey && w.allEventsUnsafe.length == 0)
  received : ∃ r ≤ w.allEventsUnsafe.length, w.events = w.allEventsUnsafe.drop r ∧ w.lastFinalizedBlock = r - 1
  published : w.b ≤ w.lastFinalizedBlock + batchFtl

theorem inv_start (ticks : ℕ) (queuedKey : Bool) : Inv queuedKey (start ticks queuedKey) :=
  ⟨rfl, Nat.zero_le _, rfl, by simp [start, activeFor], by simp [start],
    ⟨0, le_rfl, rfl, rfl⟩, Nat.zero_le _⟩

theorem keysAt_activeFor (queuedKey : Bool) {k i : ℕ} (h : queuedKey = true → batchFtl ≤ i → 0 < k) :
    keysAt (activeFor queuedKey k) i = (batchFor queuedKey i).keys := by
  unfold activeFor batchFor keysAt
  cases queuedKey
  · simp
  · by_cases hi : batchFtl ≤ i
    · simp [h rfl hi, hi]
    · have hi' : ¬ 3 ≤ i := hi
      by_cases hk : 0 < k <;> simp [hk, hi']

/-! ## What a step does -/

theorem seraiStep_eq_some {w w' : Stack} (h : seraiStep w = some w') :
    (w'.mempoolBatches = w.mempoolBatches ∧ w'.activeKeys = w.activeKeys ∧ w'.events = w.events ∧
        w'.allEventsUnsafe = w.allEventsUnsafe ∧ w'.queuedKey = w.queuedKey ∧ w'.b = w.b ∧
        w'.lastFinalizedBlock = w.lastFinalizedBlock) ∨
      ∃ batch rest, w.mempoolBatches = batch :: rest ∧ w'.mempoolBatches = rest ∧
        w'.activeKeys = (if w.queuedKey then w.activeKeys ++ [(batch.block + batchFtl, w.activeKeys.length)]
          else w.activeKeys) ∧
        w'.events = w.events ++ [.includedBatch batch] ∧
        w'.allEventsUnsafe = w.allEventsUnsafe ++ [.includedBatch batch] ∧ w'.queuedKey = false ∧ w'.b = w.b ∧
        w'.lastFinalizedBlock = w.lastFinalizedBlock := by
  unfold seraiStep at h
  split at h
  · cases h
    exact Or.inl ⟨rfl, rfl, rfl, rfl, rfl, rfl, rfl⟩
  · split at h
    · cases h
      exact Or.inl ⟨rfl, rfl, rfl, rfl, rfl, rfl, rfl⟩
    · rename_i batch rest hmempool
      cases h
      exact Or.inr ⟨batch, rest, hmempool, rfl, rfl, rfl, rfl, rfl, rfl, rfl⟩
  · cases h

theorem processorStep_eq_some {blocks : ℕ} {w w' : Stack} (h : processorStep blocks w = some w') :
    (w'.activeKeys = w.activeKeys ∧ w'.allEventsUnsafe = w.allEventsUnsafe ∧ w'.queuedKey = w.queuedKey) ∧
    ((w'.mempoolBatches = w.mempoolBatches ∧ w'.events = w.events ∧ w'.b = w.b ∧
        w'.lastFinalizedBlock = w.lastFinalizedBlock) ∨
      (w.b < blocks ∧ w.b < w.lastFinalizedBlock + batchFtl ∧
        w'.mempoolBatches = w.mempoolBatches ++ [⟨w.b, keysAt w.activeKeys w.b⟩] ∧ w'.events = w.events ∧
        w'.b = w.b + 1 ∧ w'.lastFinalizedBlock = w.lastFinalizedBlock) ∨
      ∃ event, w.events = event :: w'.events ∧ w'.mempoolBatches = w.mempoolBatches ∧ w'.b = w.b ∧
        w'.lastFinalizedBlock = (match event with
          | .includedBatch batch => batch.block
          | .ignore => w.lastFinalizedBlock)) := by
  -- the processor writes only the mempool and its own locals
  have hshared : w'.activeKeys = w.activeKeys ∧ w'.allEventsUnsafe = w.allEventsUnsafe ∧ w'.queuedKey = w.queuedKey := by
    unfold processorStep at h
    repeat' split at h
    all_goals (cases h <;> exact ⟨rfl, rfl, rfl⟩)
  refine ⟨hshared, ?_⟩
  unfold processorStep at h
  split at h
  · split at h
    · rename_i hb
      split at h
      · cases h
        exact Or.inl ⟨rfl, rfl, rfl, rfl⟩
      · rename_i hftl
        cases h
        exact Or.inr (Or.inl ⟨hb, Nat.lt_of_not_le hftl, rfl, rfl, rfl, rfl⟩)
    · cases h
      exact Or.inl ⟨rfl, rfl, rfl, rfl⟩
  · split at h
    · rename_i event rest hevents
      cases h
      exact Or.inr (Or.inr ⟨event, hevents, rfl, rfl, rfl⟩)
    · split at h
      · cases h
        exact Or.inl ⟨rfl, rfl, rfl, rfl⟩
      · cases h
  · cases h

/-! ## The invariant over every interleaving -/

theorem Inv.of_eq {q : Bool} {w w' : Stack} (hinv : Inv q w) (hm : w'.mempoolBatches = w.mempoolBatches)
    (hk : w'.activeKeys = w.activeKeys) (he : w'.events = w.events) (ha : w'.allEventsUnsafe = w.allEventsUnsafe)
    (hq : w'.queuedKey = w.queuedKey) (hb : w'.b = w.b) (hl : w'.lastFinalizedBlock = w.lastFinalizedBlock) :
    Inv q w' := by
  obtain ⟨hincl, hle, hmem, hkeys, hqueued, ⟨r, hr, hev, hlf⟩, hpub⟩ := hinv
  refine ⟨?_, ?_, ?_, ?_, ?_, ⟨r, ?_, ?_, ?_⟩, ?_⟩
  all_goals simp only [hm, hk, he, ha, hq, hb, hl]
  all_goals assumption

theorem mempool_cons {q : Bool} {k b : ℕ} {batch : Batch} {rest : List Batch}
    (hmem : batch :: rest = (List.range' k (b - k)).map (batchFor q)) :
    k < b ∧ batch = batchFor q k ∧ rest = (List.range' (k + 1) (b - (k + 1))).map (batchFor q) := by
  have hk : k < b := by
    by_contra hkb
    rw [Nat.sub_eq_zero_of_le (Nat.le_of_not_lt hkb), List.range'_zero, List.map_nil] at hmem
    cases hmem
  rw [show b - k = (b - (k + 1)) + 1 by omega, List.range'_succ, List.map_cons] at hmem
  obtain ⟨hbatch, hrest⟩ := List.cons.inj hmem
  exact ⟨hk, hbatch, hrest⟩

theorem activeFor_succ (q : Bool) (k : ℕ) :
    (if (q && k == 0) = true then activeFor q k ++ [((batchFor q k).block + batchFtl, (activeFor q k).length)]
      else activeFor q k) = activeFor q (k + 1) := by
  cases q <;> rcases Nat.eq_zero_or_pos k with rfl | hk <;> simp [activeFor, batchFor, *, Nat.pos_iff_ne_zero.mp]

theorem seraiStep_inv {q : Bool} {w w' : Stack} (hinv : Inv q w) (h : seraiStep w = some w') : Inv q w' := by
  rcases seraiStep_eq_some h with ⟨hm, hk, he, ha, hq, hb, hl⟩ | ⟨batch, rest, hcons, hm, hk, he, ha, hq, hb, hl⟩
  · exact hinv.of_eq hm hk he ha hq hb hl
  · obtain ⟨hincl, hle, hmem, hkeys, hqueued, ⟨r, hr, hev, hlf⟩, hpub⟩ := hinv
    obtain ⟨k, hk'⟩ : ∃ k, w.allEventsUnsafe.length = k := ⟨_, rfl⟩
    rw [hk'] at hincl hle hmem hkeys hqueued hr
    rw [hcons] at hmem
    obtain ⟨hkb, rfl, hrest⟩ := mempool_cons hmem
    -- batch `k` is included: the events, the keys and the mempool move on by one block
    have hlen : w'.allEventsUnsafe.length = k + 1 := by
      rw [ha, List.length_append, hk', List.length_singleton]
    refine ⟨?_, ?_, ?_, ?_, ?_, ⟨r, ?_, ?_, ?_⟩, ?_⟩
    · rw [hlen, List.range_succ, List.map_append, ha, hincl, List.map_singleton]
    · rw [hlen, hb]
      exact hkb
    · rw [hlen, hm, hb, hrest]
    · rw [hlen, hk, hqueued, hkeys, activeFor_succ]
    · rw [hlen, hq]
      cases q <;> rfl
    · rw [hlen]
      omega
    · rw [he, ha, hev, List.drop_append_of_le_length (by rw [hk']; exact hr)]
    · rw [hl, hlf]
    · rw [hb, hl]
      exact hpub

theorem Inv.getElem_allEvents {q : Bool} {events : List Event}
    (hincl : events = (List.range events.length).map fun i => .includedBatch (batchFor q i)) {i : ℕ}
    (hi : i < events.length) : events[i] = .includedBatch (batchFor q i) := by
  rw [List.getElem_of_eq hincl hi, List.getElem_map, List.getElem_range]

theorem processorStep_inv {q : Bool} {blocks : ℕ} {w w' : Stack} (hinv : Inv q w)
    (h : processorStep blocks w = some w') : Inv q w' := by
  obtain ⟨⟨hk, ha, hq⟩, hcases⟩ := processorStep_eq_some h
  rcases hcases with ⟨hm, he, hb, hl⟩ | ⟨-, hftl, hm, he, hb, hl⟩ | ⟨event, hevents, hm, hb, hl⟩
  · exact hinv.of_eq hm hk he ha hq hb hl
  · -- the batch of block `b` is published, the new key in it when `b` is at its activation
    obtain ⟨hincl, hle, hmem, hkeys, hqueued, ⟨r, hr, hev, hlf⟩, hpub⟩ := hinv
    have hkeysAt : keysAt w.activeKeys w.b = (batchFor q w.b).keys := by
      rw [hkeys]
      refine keysAt_activeFor q fun _ hb3 => ?_
      have : 3 ≤ w.b := hb3
      have : w.b < w.lastFinalizedBlock + 3 := hftl
      omega
    refine ⟨?_, ?_, ?_, ?_, ?_, ⟨r, ?_, ?_, ?_⟩, ?_⟩
    · rw [ha]
      exact hincl
    · rw [ha, hb]
      omega
    · rw [ha, hm, hb, hmem, show w.b + 1 - w.allEventsUnsafe.length = (w.b - w.allEventsUnsafe.length) + 1 by omega,
        List.range'_concat, List.map_append, List.map_singleton, Nat.one_mul,
        show w.allEventsUnsafe.length + (w.b - w.allEventsUnsafe.length) = w.b by omega]
      congr 2
      exact congrArg (Batch.mk w.b) hkeysAt
    · rw [hk, ha]
      exact hkeys
    · rw [hq, ha]
      exact hqueued
    · rw [ha]
      exact hr
    · rw [he, ha]
      exact hev
    · rw [hl]
      exact hlf
    · rw [hb, hl]
      omega
  · -- the next event received is that of the `r`-th included batch, of block `r`
    obtain ⟨hincl, hle, hmem, hkeys, hqueued, ⟨r, hr, hev, hlf⟩, hpub⟩ := hinv
    have hrk : r < w.allEventsUnsafe.length := by
      by_contra hge
      rw [List.drop_eq_nil_of_le (Nat.le_of_not_lt hge)] at hev
      rw [hev] at hevents
      cases hevents
    have hevent : event = .includedBatch (batchFor q r) := by
      rw [hev, List.drop_eq_getElem_cons hrk] at hevents
      rw [← (List.cons.inj hevents).1, Inv.getElem_allEvents hincl hrk]
    refine ⟨?_, ?_, ?_, ?_, ?_, ⟨r + 1, ?_, ?_, ?_⟩, ?_⟩
    · rw [ha]
      exact hincl
    · rw [ha, hb]
      exact hle
    · rw [ha, hm, hb]
      exact hmem
    · rw [hk, ha]
      exact hkeys
    · rw [hq, ha]
      exact hqueued
    · rw [ha]
      exact hrk
    · rw [hev, List.drop_eq_getElem_cons hrk] at hevents
      rw [ha]
      exact (List.cons.inj hevents).2.symm
    · rw [hl, hevent]
      rfl
    · rw [hb, hl, hevent]
      have : w.b ≤ r - 1 + 3 := hlf ▸ hpub
      show w.b ≤ r + 3
      omega

theorem Reach.inv {ticks blocks : ℕ} {q : Bool} {w : Stack} (h : Reach (processorStep blocks) ticks q w) :
    Inv q w := by
  induction h with
  | start => exact inv_start ticks q
  | step t _ hstep ih =>
    cases t with
    | serai => exact seraiStep_inv ih hstep
    | processor => exact processorStep_inv ih hstep

/-- Mini Serai with `Processor::new` has no activation race: in every interleaving, the
    `i`-th event is the inclusion of the batch of block `i`, with exactly the keys active at
    block `i`. -/
theorem ftl_solves_activation_race {ticks blocks : ℕ} {queuedKey : Bool} {w : Stack}
    (h : Reach (processorStep blocks) ticks queuedKey w) (i : ℕ) (hi : i < w.allEventsUnsafe.length) :
    w.allEventsUnsafe[i] = .includedBatch ⟨i, keysAt w.activeKeys i⟩ := by
  have hinv := h.inv
  rw [Inv.getElem_allEvents hinv.included hi, hinv.activeKeys, keysAt_activeFor queuedKey fun _ _ => by omega]
  rfl

/-- The test's run: four ticks, a queued key, four blocks. The processor publishes blocks
    0 to 2, waits for batch 1's inclusion, then publishes block 3. -/
def ftlSchedule : List Thread :=
  [.processor, .processor, .processor, .serai, .serai, .serai, .serai, .processor, .processor, .processor,
    .processor, .processor, .processor, .serai, .serai, .serai, .serai, .serai]

/-- In that run the batch of block 3 is included with the new key. -/
theorem ftl_schedule_batch_three :
    ∃ w, Reach (processorStep 4) 4 true w ∧ ∃ h : 3 < w.allEventsUnsafe.length,
      w.allEventsUnsafe[3] = .includedBatch ⟨3, [0, 1]⟩ := by
  have hrun : runThreads (processorStep 4) (start 4 true) ftlSchedule =
      some ((runThreads (processorStep 4) (start 4 true) ftlSchedule).getD (start 0 false)) := by
    decide
  have hreach := Reach.of_runThreads ftlSchedule Reach.start hrun
  refine ⟨_, hreach, by decide, (ftl_solves_activation_race hreach 3 (by decide)).trans ?_⟩
  decide

/-! ## Without the wait -/

/-- A step of the activation test's `EagerProcessor`, which publishes the batches of blocks
    `0 .. batches` one after the other. -/
def eagerStep (batches : ℕ) (w : Stack) : Option Stack :=
  match w.processorAt with
  | .loop =>
    if w.b < batches then
      some { w with mempoolBatches := w.mempoolBatches ++ [⟨w.b, keysAt w.activeKeys w.b⟩], b := w.b + 1 }
    else some { w with processorAt := .done }
  | _ => none

/-- All four batches published before Serai includes the first. -/
def eagerSchedule : List Thread :=
  [.processor, .processor, .processor, .processor, .serai, .serai, .serai, .serai, .serai, .serai, .serai, .serai]

theorem eager_activation_race :
    ∃ w, Reach (eagerStep 4) 4 true w ∧ ∃ h : 3 < w.allEventsUnsafe.length,
      w.allEventsUnsafe[3] = .includedBatch ⟨3, [0]⟩ ∧ keysAt w.activeKeys 3 = [0, 1] := by
  have hrun : runThreads (eagerStep 4) (start 4 true) eagerSchedule =
      some ((runThreads (eagerStep 4) (start 4 true) eagerSchedule).getD (start 0 false)) := by
    decide
  exact ⟨_, Reach.of_runThreads eagerSchedule Reach.start hrun, by decide, by decide, by decide⟩

end Serai.Mini
