import Serai.Tributary.Blockchain
/-
  Serai.Tributary.Agreement — `verify_block` and `add_block` agree, in every state a chain
  reaches (coordinator/tributary/src/blockchain.rs, provided.rs, mempool.rs).

  `add_block` verifies the block, then writes it without checking again: each provided
  transaction is completed (its locally provided twin popped and its hash found among the
  currently provided ones, a miss being a panic), each unsigned or signed one removed from
  the mempool (a signed one's signer's count unwrapped). Neither panic happens in a
  reachable state:
  - `QueuesInv`: every queued provided transaction's hash is among the currently provided
    ones and recorded as provided, and no two queued transactions share a hash;
    `popProvided_queuesInv` and `provide_queuesInv`: completing and providing keep it.
  - `CountsInv`: every signed transaction in the mempool has a count for its signer;
    `remove_countsInv` and `add_countsInv`: removing and adding keep it.
  - `reach_inv`: both hold in every state a run of calls reaches from `Blockchain::new`.
  - `add_block_agrees_with_verify`: there, `add_block` succeeds exactly when
    `verify_block` with non-local provided transactions allowed does, and fails only with
    its error. On success every signer's next nonce of every order is the one
    `verify_block`'s scratch counter reached, every provided and unsigned hash of the block
    is marked included, so that a later block repeating one fails verification, the tip is
    the block's hash and the block number is one more.
-/

namespace Serai.Tributary

open Serai.Lib

variable {G O Hh : Type} [DecidableEq G] [DecidableEq O] [DecidableEq Hh]

/-! ## The invariants -/

/-- The provided queues against the database they are kept with (`get` reads the database,
    or a transaction open on it): each queued transaction's hash is among the currently
    provided ones and recorded as provided, and the queued hashes are distinct. -/
def QueuesInv (get : (k : Key G O Hh) → Option k.val) (queues : O → List (Transaction G O Hh)) : Prop :=
  (∀ o, ∀ t ∈ queues o, t.hash ∈ (get .currentProvided).getD [] ∧ (get (.transaction t.hash)).isSome) ∧
    (∀ o, ((queues o).map (·.hash)).Nodup) ∧
    ∀ o o', o ≠ o' → ∀ t ∈ queues o, ∀ t' ∈ queues o', t.hash ≠ t'.hash

/-- Every signed transaction in the mempool has a count for its signer. -/
def CountsInv (m : Mempool G O Hh) : Prop :=
  ∀ t ∈ m.txs, ∀ order signer nonce, t.kind = .signed order signer nonce → (m.txsPerSigner signer).isSome

/-- A chain's invariant. -/
def Blockchain.Inv (c : Blockchain G O Hh) : Prop := QueuesInv c.db c.provided ∧ CountsInv c.mempool

/-- The states a chain reaches: from `Blockchain::new`, by calls that succeed. -/
inductive Blockchain.Reach (p : Params G O Hh) : Blockchain G O Hh → Prop
  | new (genesis : Hh) (participants : List G) : Reach p (Blockchain.new genesis participants)
  | step {c c' : Blockchain G O Hh} (call : Call G O Hh) : Reach p c → c.step p call = .ok c' → Reach p c'

/-! ## The provided queues -/

/-- A queue with its head popped, if it has one. -/
def popQueue (queues : O → List (Transaction G O Hh)) (order : O) : O → List (Transaction G O Hh) :=
  match queues order with
  | _ :: rest => Function.update queues order rest
  | [] => queues

omit [DecidableEq G] [DecidableEq O] [DecidableEq Hh] in
theorem QueuesInv.of_get {get get' : (k : Key G O Hh) → Option k.val} {queues : O → List (Transaction G O Hh)}
    (h : QueuesInv get queues) (hcur : get' .currentProvided = get .currentProvided)
    (htx : ∀ hash, (get (.transaction hash)).isSome → (get' (.transaction hash)).isSome) :
    QueuesInv get' queues := by
  obtain ⟨hmem, hnodup, hdisj⟩ := h
  refine ⟨fun o t ht => ?_, hnodup, hdisj⟩
  obtain ⟨hcp, hrec⟩ := hmem o t ht
  exact ⟨hcur ▸ hcp, htx _ hrec⟩

omit [DecidableEq G] [DecidableEq Hh] in
theorem QueuesInv.pop {get : (k : Key G O Hh) → Option k.val} {queues : O → List (Transaction G O Hh)}
    (h : QueuesInv get queues) {o : O} {next : Transaction G O Hh} {rest : List (Transaction G O Hh)}
    (hq : queues o = next :: rest) :
    ∀ o' t, t ∈ Function.update queues o rest o' → t ∈ queues o' ∧ t.hash ≠ next.hash := by
  obtain ⟨-, hnodup, hdisj⟩ := h
  intro o' t ht
  by_cases ho : o' = o
  · subst ho
    rw [Function.update_self] at ht
    have hnd := hnodup o'
    rw [hq, List.map_cons, List.nodup_cons] at hnd
    refine ⟨by rw [hq]; exact List.mem_cons_of_mem _ ht, fun heq => hnd.1 ?_⟩
    rw [← heq]
    exact List.mem_map_of_mem ht
  · rw [Function.update_of_ne ho] at ht
    exact ⟨ht, hdisj o' o ho t ht next (by rw [hq]; exact List.mem_cons_self)⟩

theorem popProvided_queuesInv {queues queues' : O → List (Transaction G O Hh)} {txn txn' : TributaryTxn G O Hh}
    {order : O} {hash : Hh} (hinv : QueuesInv txn.get queues)
    (h : popProvided queues txn order hash = .ok (txn', queues')) : QueuesInv txn'.get queues' := by
  unfold popProvided at h
  split at h
  · cases h
    exact hinv
  · rename_i next rest hq
    split at h
    · cases h
    · rename_i hhash
      split at h
      · cases h
      · rename_i currentlyProvided hcur
        split at h
        · cases h
        · cases h
          have hpop := hinv.pop hq
          obtain ⟨hmem, hnodup, hdisj⟩ := hinv
          refine ⟨fun o' t ht => ?_, fun o' => ?_, fun o₁ o₂ hne t ht t' ht' => ?_⟩
          -- the other queued hashes are not the one erased
          · obtain ⟨ht', hne⟩ := hpop o' t ht
            have hnext : next.hash = hash := not_not.mp hhash
            obtain ⟨hcp, hrec⟩ := hmem o' t ht'
            rw [hcur] at hcp
            refine ⟨?_, by simpa using hrec⟩
            simpa using List.mem_erase_of_ne (hnext ▸ hne) |>.mpr hcp
          · by_cases ho : o' = order
            · subst ho
              have hnd := hnodup o'
              rw [hq, List.map_cons, List.nodup_cons] at hnd
              simpa using hnd.2
            · rw [Function.update_of_ne ho]
              exact hnodup o'
          · exact hdisj o₁ o₂ hne t (hpop o₁ t ht).1 t' (hpop o₂ t' ht').1

theorem complete_queuesInv {queues queues' : O → List (Transaction G O Hh)} {txn txn' : TributaryTxn G O Hh}
    {order : O} {block hash : Hh} (hinv : QueuesInv txn.get queues)
    (h : complete queues txn order block hash = .ok (txn', queues')) : QueuesInv txn'.get queues' := by
  unfold complete at h
  obtain ⟨⟨txn₁, queues₁⟩, hpop, h⟩ := except_bind_ok h
  cases h
  exact (popProvided_queuesInv hinv hpop).of_get (by simp [countOnChain]) (fun _ h => by simpa [countOnChain] using h)

theorem complete_queues {queues queues' : O → List (Transaction G O Hh)} {txn txn' : TributaryTxn G O Hh}
    {order : O} {block hash : Hh} (h : complete queues txn order block hash = .ok (txn', queues')) :
    queues' = popQueue queues order := by
  unfold complete at h
  obtain ⟨⟨txn₁, queues₁⟩, hpop, h⟩ := except_bind_ok h
  cases h
  unfold popProvided at hpop
  unfold popQueue
  split at hpop
  · rename_i hq
    cases hpop
    rw [hq]
  · rename_i next rest hq
    rw [hq]
    split at hpop
    · cases hpop
    · split at hpop
      · cases hpop
      · split at hpop
        · cases hpop
        · cases hpop
          rfl

theorem complete_ok {queues : O → List (Transaction G O Hh)} {txn : TributaryTxn G O Hh} {order : O}
    (block : Hh) {hash : Hh} (hinv : QueuesInv txn.get queues)
    (hnext : ∀ next rest, queues order = next :: rest → next.hash = hash) :
    ∃ r, complete queues txn order block hash = .ok r := by
  unfold complete popProvided
  cases hq : queues order with
  | nil => exact ⟨_, rfl⟩
  | cons next rest =>
    have hh := hnext next rest hq
    -- the queued hash is among the currently provided ones
    have hmem := (hinv.1 order next (by rw [hq]; exact List.mem_cons_self)).1
    rw [hh] at hmem
    cases hcur : txn.get .currentProvided with
    | none => rw [hcur] at hmem; cases hmem
    | some currentlyProvided =>
      replace hmem : hash ∈ currentlyProvided := by simpa [hcur] using hmem
      simp only [hh, ne_eq, not_true_eq_false, if_false]
      rw [if_neg (not_not.mpr hmem)]
      exact ⟨_, rfl⟩

theorem provide_queuesInv {checks : Checks G O Hh} {db db' : TributaryDb G O Hh}
    {queues queues' : O → List (Transaction G O Hh)} {tx : Transaction G O Hh} (hinv : QueuesInv db queues)
    (h : provide checks db queues tx = .ok (db', queues')) : QueuesInv db' queues' := by
  unfold provide at h
  split at h
  · rename_i order hkind
    split at h
    · cases h
    · split at h
      · cases h
      · rename_i hfresh
        -- no queued transaction has the new hash
        have hnew : ∀ o, ∀ t ∈ queues o, t.hash ≠ tx.hash := fun o t ht heq => by
          have := (hinv.1 o t ht).2
          rw [heq] at this
          exact hfresh this
        dsimp only at h
        split at h
        · split at h
          · cases h
          · split at h
            · cases h
            · cases h
              refine hinv.of_get (by simp) (fun hash hrec => ?_)
              by_cases hh : hash = tx.hash
              · subst hh
                simp
              · simpa [hh] using hrec
        · cases h
          obtain ⟨hmem, hnodup, hdisj⟩ := hinv
          refine ⟨fun o t ht => ?_, fun o => ?_, fun o₁ o₂ hne t ht t' ht' => ?_⟩
          · by_cases ho : o = order
            · subst ho
              rw [Function.update_self, List.mem_append, List.mem_singleton] at ht
              rcases ht with ht | rfl
              · obtain ⟨hcp, hrec⟩ := hmem o t ht
                have hne : t.hash ≠ tx.hash := hnew o t ht
                refine ⟨by simp [hcp], ?_⟩
                simpa [hne] using hrec
              · simp
            · rw [Function.update_of_ne ho] at ht
              obtain ⟨hcp, hrec⟩ := hmem o t ht
              have hne : t.hash ≠ tx.hash := hnew o t ht
              refine ⟨by simp [hcp], ?_⟩
              simpa [hne] using hrec
          · by_cases ho : o = order
            · subst ho
              rw [Function.update_self, List.map_append, List.nodup_append]
              refine ⟨hnodup o, by simp, fun a ha b hb => ?_⟩
              rw [List.map_cons, List.map_nil, List.mem_singleton] at hb
              subst hb
              obtain ⟨t, ht, rfl⟩ := List.mem_map.mp ha
              exact hnew o t ht
            · rw [Function.update_of_ne ho]
              exact hnodup o
          -- the new transaction is queued under its own order only
          · have hq : ∀ o t, t ∈ Function.update queues order (queues order ++ [tx]) o →
                t ∈ queues o ∨ (t = tx ∧ o = order) := by
              intro o t ht
              by_cases ho : o = order
              · subst ho
                rw [Function.update_self, List.mem_append, List.mem_singleton] at ht
                exact ht.imp id fun h => ⟨h, rfl⟩
              · rw [Function.update_of_ne ho] at ht
                exact .inl ht
            rcases hq o₁ t ht with h₁ | ⟨rfl, rfl⟩ <;> rcases hq o₂ t' ht' with h₂ | ⟨rfl, rfl⟩
            · exact hdisj o₁ o₂ hne t h₁ t' h₂
            · exact hnew o₁ t h₁
            · exact fun heq => hnew o₂ t' h₂ heq.symm
            · exact absurd rfl hne
  · cases h

/-! ## The mempool's counts -/

omit [DecidableEq G] [DecidableEq O] [DecidableEq Hh] in
theorem CountsInv.mono {m m' : Mempool G O Hh} (h : CountsInv m) (htxs : ∀ t ∈ m'.txs, t ∈ m.txs)
    (hcounts : ∀ signer, (m.txsPerSigner signer).isSome → (m'.txsPerSigner signer).isSome) : CountsInv m' :=
  fun t ht order signer nonce hkind => hcounts signer (h t (htxs t ht) order signer nonce hkind)

omit [DecidableEq G] [DecidableEq O] in
theorem CountsInv.saveTx {m : Mempool G O Hh} (h : CountsInv m) {tx : Transaction G O Hh}
    (htx : ∀ order signer nonce, tx.kind = .signed order signer nonce → (m.txsPerSigner signer).isSome) :
    CountsInv (m.saveTx tx) := by
  intro t ht order signer nonce hkind
  simp only [Mempool.saveTx, List.mem_append, List.mem_filter, List.mem_singleton] at ht
  rcases ht with ⟨ht, -⟩ | rfl
  · exact h t ht order signer nonce hkind
  · exact htx order signer nonce hkind

theorem remove_countsInv {m : Mempool G O Hh} (h : CountsInv m) (hash : Hh) :
    ∃ m', m.remove hash = .ok m' ∧ CountsInv m' := by
  unfold Mempool.remove
  split
  · exact ⟨m, rfl, h⟩
  · rename_i tx hfind
    have hsub : ∀ t ∈ m.txs.filter (fun t => t.hash ≠ hash), t ∈ m.txs := fun t ht => List.mem_of_mem_filter ht
    split
    · rename_i order signer nonce hkind
      -- the found transaction is signed: its signer has a count to unwrap
      obtain ⟨amount, hamount⟩ :=
        Option.isSome_iff_exists.mp (h tx (List.mem_of_find?_eq_some hfind) order signer nonce hkind)
      simp only [hamount]
      -- both branches leave the signer's count decremented, and every other count
      split
      all_goals
        refine ⟨_, rfl, h.mono hsub fun s hs => ?_⟩
        by_cases hss : s = signer
        · subst hss
          simp
        · simpa [Function.update_of_ne hss] using hs
    · exact ⟨_, rfl, h.mono hsub fun _ hs => hs⟩

theorem add_countsInv {m m' : Mempool G O Hh} {checks : Checks G O Hh} {next : G → O → Option UInt32}
    {internal : Bool} {tx : Transaction G O Hh} {unsignedInChain : Hh → Bool} {added : Bool} (h : CountsInv m)
    (hadd : m.add checks next internal tx unsignedInChain = .ok (added, m')) : CountsInv m' := by
  unfold Mempool.add at hadd
  split at hadd
  · split at hadd
    · cases hadd
    · rename_i hunsigned
      split at hadd
      · cases hadd
        exact h
      · split at hadd
        · cases hadd
        · cases hadd
          exact h.saveTx fun order signer nonce hkind => absurd hkind (by rw [not_not.mp hunsigned]; simp)
  · split at hadd
    · rename_i order signer nonce hkind
      split at hadd
      · cases hadd
      · obtain ⟨nextNonce, -, hadd⟩ := except_bind_ok hadd
        dsimp only at hadd
        split at hadd
        · simp [throw, throwThe, MonadExceptOf.throw, bind, Except.bind] at hadd
        · split at hadd
          · cases hadd
          · cases hadd
            apply CountsInv.saveTx
            · refine h.mono (fun _ ht => ht) fun s hs => ?_
              by_cases hss : s = signer
              · subst hss
                simp
              · simpa [Function.update_of_ne hss] using hs
            · intro order' signer' nonce' hkind'
              rw [hkind] at hkind'
              cases hkind'
              simp
    · rename_i hkind
      split at hadd
      · cases hadd
        exact h
      · split at hadd
        · cases hadd
        · cases hadd
          exact h.saveTx fun order signer nonce hk => by rw [hkind] at hk; cases hk
    · cases hadd

/-! ## What verification does to the queues and the nonces -/

section VerifyStep

variable {σ : Type} {checks : Checks G O Hh} {gain : G → O → σ → Option UInt32 × σ} {inChain : Hh → Bool}
  {allow : Bool} {acc acc' : VerifyAcc G O Hh σ} {tx : Transaction G O Hh}

theorem verifyStep_provided_cons {order : O} {localTx : Transaction G O Hh} {rest : List (Transaction G O Hh)}
    (hkind : tx.kind = .provided order) (hlocal : acc.locallyProvided order = localTx :: rest)
    (h : verifyStep checks gain inChain allow acc tx = .ok acc') :
    tx = localTx ∧ acc'.locallyProvided = Function.update acc.locallyProvided order rest := by
  unfold verifyStep at h
  simp only [hkind, hlocal, bind, Except.bind, pure, Except.pure, throw, throwThe, MonadExceptOf.throw] at h
  -- every check that throws contradicts success: the path through all of them is left
  split_ifs at h with _ _ hne
  refine ⟨not_not.mp hne, ?_⟩
  split at h
  · cases h
  · cases h
    rfl

theorem verifyStep_locallyProvided (h : verifyStep checks gain inChain allow acc tx = .ok acc') :
    acc'.locallyProvided = match tx.kind with
      | .provided order => popQueue acc.locallyProvided order
      | _ => acc.locallyProvided := by
  cases hk : tx.kind with
  | provided order =>
    cases hl : acc.locallyProvided order with
    | cons localTx rest =>
      rw [(verifyStep_provided_cons hk hl h).2]
      simp [popQueue, hl]
    | nil =>
      unfold verifyStep at h
      simp only [hk, hl, bind, Except.bind, pure, Except.pure, throw, throwThe, MonadExceptOf.throw] at h
      simp only [popQueue, hl]
      split_ifs at h
      all_goals
        split at h
        · cases h
        · cases h
          rfl
  | unsigned =>
    unfold verifyStep at h
    simp only [hk, bind, Except.bind, pure, Except.pure, throw, throwThe, MonadExceptOf.throw] at h
    split_ifs at h
    all_goals
      split at h
      · cases h
      · cases h
        rfl
  | signed order signer nonce =>
    unfold verifyStep at h
    simp only [hk, bind, Except.bind, pure, Except.pure, throw, throwThe, MonadExceptOf.throw] at h
    split_ifs at h
    all_goals
      split at h
      · cases h
      · cases h
        rfl

theorem verifyStep_nonces (h : verifyStep checks gain inChain allow acc tx = .ok acc') :
    (tx.tendermint = true ∧ acc'.nonces = acc.nonces) ∨
      (tx.tendermint = false ∧ verifyTransaction checks tx gain acc.nonces = .ok acc'.nonces) := by
  unfold verifyStep at h
  cases htm : tx.tendermint <;> cases hk : tx.kind <;>
    simp only [htm, hk, bind, Except.bind, pure, Except.pure, throw, throwThe, MonadExceptOf.throw,
      Bool.false_eq_true, if_false, if_true] at h
  -- every path through the checks: those that throw contradict success, the others end in
  -- the Tendermint check or in `verify_transaction`
  all_goals
    repeat' split_ifs at h
    repeat' split at h
  all_goals
    cases h
  all_goals
    first
      | exact .inl ⟨rfl, rfl⟩
      | exact .inr ⟨rfl, by assumption⟩

/-- `add_block`'s loop beside `verify_block`'s: the same provided queues, with the
    invariants. -/
def Lockstep (vacc : VerifyAcc G O Hh σ) (inc : Blockchain.Including G O Hh) : Prop :=
  vacc.locallyProvided = inc.provided ∧ QueuesInv inc.txn.get inc.provided ∧ CountsInv inc.mempool

theorem includeTx_of_verifyStep (tip : Hh) {inc : Blockchain.Including G O Hh}
    (h : verifyStep checks gain inChain allow acc tx = .ok acc') (hR : Lockstep acc inc) :
    ∃ inc', Blockchain.includeTx tip inc tx = .ok inc' ∧ Lockstep acc' inc' := by
  obtain ⟨hlp, hq, hc⟩ := hR
  have hv := verifyStep_locallyProvided h
  unfold Blockchain.includeTx
  cases hk : tx.kind with
  | provided order =>
    rw [hk] at hv
    -- the queued transaction, if any, is the one verification compared with
    have hnext : ∀ next rest, inc.provided order = next :: rest → next.hash = tx.hash := by
      intro next rest hl
      rw [(verifyStep_provided_cons hk (hlp ▸ hl) h).1]
    obtain ⟨⟨txn, provided⟩, hcomplete⟩ := complete_ok tip hq hnext
    refine ⟨⟨txn.put (.providedIncluded tx.hash) (), provided, inc.mempool⟩,
      by dsimp only; rw [except_bind_of_ok hcomplete]; rfl, ?_, ?_, hc⟩
    · rw [hv, complete_queues hcomplete, hlp]
    · exact (complete_queuesInv hq hcomplete).of_get (by simp) fun _ h => by simpa using h
  | unsigned =>
    rw [hk] at hv
    obtain ⟨m, hremove, hm⟩ := remove_countsInv hc tx.hash
    refine ⟨⟨inc.txn.put (.unsignedIncluded tx.hash) (), inc.provided, m⟩,
      by dsimp only; rw [except_bind_of_ok hremove]; rfl, by rw [hv, hlp], hq.of_get (by simp) ?_, hm⟩
    intro _ h
    simpa using h
  | signed order signer nonce =>
    rw [hk] at hv
    obtain ⟨m, hremove, hm⟩ := remove_countsInv hc tx.hash
    refine ⟨⟨inc.txn.put (.nextNonce signer order) (nonce + 1), inc.provided, m⟩,
      by dsimp only; rw [except_bind_of_ok hremove]; rfl, by rw [hv, hlp], hq.of_get (by simp) ?_, hm⟩
    intro _ h
    simpa using h

end VerifyStep

/-! ## Every reachable state has the invariants -/

theorem includeTx_inv {tip : Hh} {inc inc' : Blockchain.Including G O Hh} {tx : Transaction G O Hh}
    (h : Blockchain.includeTx tip inc tx = .ok inc') (hq : QueuesInv inc.txn.get inc.provided)
    (hc : CountsInv inc.mempool) : QueuesInv inc'.txn.get inc'.provided ∧ CountsInv inc'.mempool := by
  unfold Blockchain.includeTx at h
  split at h
  · obtain ⟨⟨txn, provided⟩, hcomplete, h⟩ := except_bind_ok h
    cases h
    exact ⟨(complete_queuesInv hq hcomplete).of_get (by simp) fun _ h => by simpa using h, hc⟩
  all_goals
    obtain ⟨m, hremove, h⟩ := except_bind_ok h
    cases h
    obtain ⟨m', hremove', hm'⟩ := remove_countsInv hc tx.hash
    rw [hremove] at hremove'
    cases hremove'
    exact ⟨hq.of_get (by simp) fun _ h => by simpa using h, hm'⟩

theorem addBlock_inv {p : Params G O Hh} {c c' : Blockchain G O Hh} {b : Block G O Hh}
    (h : c.addBlock p b = .ok c') (hinv : c.Inv) : c'.Inv := by
  unfold Blockchain.addBlock at h
  split at h
  · cases h
  obtain ⟨acc, hloop, h⟩ := except_bind_ok h
  cases h
  have := foldlM_except_inv (fun _ (acc : Blockchain.Including G O Hh) =>
      QueuesInv acc.txn.get acc.provided ∧ CountsInv acc.mempool) b.transactions
    (fun _ _ _ _ _ _ hpre hstep => includeTx_inv hstep hpre.1 hpre.2)
    (show QueuesInv (Db.begin c.db).get c.provided ∧ CountsInv c.mempool from hinv) hloop
  exact ⟨this.1.of_get (by simp) fun _ h => by simpa using h, this.2⟩

omit [DecidableEq G] [DecidableEq O] [DecidableEq Hh] in
theorem new_inv (genesis : Hh) (participants : List G) :
    (Blockchain.new genesis participants : Blockchain G O Hh).Inv := by
  refine ⟨⟨fun _ t ht => ?_, fun _ => List.nodup_nil, fun _ _ _ t ht => ?_⟩, fun t ht => ?_⟩ <;>
    simp [Blockchain.new, Mempool.empty] at ht

theorem step_inv {p : Params G O Hh} {c c' : Blockchain G O Hh} {call : Call G O Hh}
    (h : c.step p call = .ok c') (hinv : c.Inv) : c'.Inv := by
  cases call with
  | addTransaction internal tx =>
    obtain ⟨⟨added, c₁⟩, hadd, h⟩ := except_bind_ok h
    cases h
    unfold Blockchain.addTransaction at hadd
    obtain ⟨⟨added', mempool⟩, hmempool, hadd⟩ := except_bind_ok hadd
    cases hadd
    exact ⟨hinv.1, add_countsInv hinv.2 hmempool⟩
  | provideTransaction tx =>
    unfold Blockchain.step Blockchain.provideTransaction at h
    obtain ⟨⟨db, provided⟩, hprovide, h⟩ := except_bind_ok h
    cases h
    exact ⟨provide_queuesInv hinv.1 hprovide, hinv.2⟩
  | addBlock b => exact addBlock_inv h hinv

theorem reach_inv {p : Params G O Hh} {c : Blockchain G O Hh} (h : c.Reach p) : c.Inv := by
  induction h with
  | new genesis participants => exact new_inv genesis participants
  | step call _ hstep ih => exact step_inv hstep ih

/-! ## `verify_block` against `add_block` -/

section Agreement

variable {p : Params G O Hh} {c : Blockchain G O Hh} {b : Block G O Hh}

theorem verifyBlock_loop {allow : Bool} (h : c.verifyBlock p b allow = .ok ()) :
    ∃ acc, b.transactions.foldlM (verifyStep p.checks c.getAndIncrementNonce
      (fun hash => (c.db (.unsignedIncluded hash)).isSome || (c.db (.providedIncluded hash)).isSome) allow)
      ⟨0, [], c.provided, Db.begin c.db⟩ = .ok acc := by
  unfold Blockchain.verifyBlock Block.verify at h
  simp only [bind, Except.bind, pure, Except.pure, throw, throwThe, MonadExceptOf.throw] at h
  split_ifs at h
  all_goals
    split at h
    · cases h
    · rename_i acc hacc
      exact ⟨acc, hacc⟩

theorem verifyTransaction_nonce {tx : Transaction G O Hh} {s s' : TributaryTxn G O Hh}
    (h : verifyTransaction p.checks tx c.getAndIncrementNonce s = .ok s') (signer : G) (order : O) :
    s'.get (.nextNonce signer order) =
      match tx.kind with
      | .signed order' signer' nonce =>
        if order' = order ∧ signer' = signer then some (nonce + 1) else s.get (.nextNonce signer order)
      | _ => s.get (.nextNonce signer order) := by
  unfold verifyTransaction at h
  -- what fails before the nonce is read contradicts success
  cases hsize : p.checks.withinSize tx
  · simp [hsize, throw, throwThe, MonadExceptOf.throw, bind, Except.bind] at h
  cases hv : p.checks.verify tx
  · simp [hsize, hv, bind, Except.bind] at h
  cases hk : tx.kind with
  | provided order' => simp_all [bind, Except.bind, pure, Except.pure]
  | unsigned => simp_all [bind, Except.bind, pure, Except.pure]
  | signed order' signer' nonce =>
    simp only [hsize, hv, hk, Blockchain.getAndIncrementNonce, bind, Except.bind, pure, Except.pure, throw,
      throwThe, MonadExceptOf.throw] at h
    -- a participant's counter is read, must be the nonce, and is bumped
    by_cases hp : signer' ∈ c.participants
    · simp only [hp, if_true, Bool.not_true, Bool.false_eq_true, if_false] at h
      split_ifs at h with hn
      cases h
      rw [not_not.mp hn]
      by_cases hso : order' = order ∧ signer' = signer
      · obtain ⟨rfl, rfl⟩ := hso
        simp
      · have hne : Key.nextNonce signer order ≠ (.nextNonce signer' order' : Key G O Hh) := by
          intro heq
          cases heq
          exact hso ⟨rfl, rfl⟩
        simp only [if_neg hso]
        exact get_put_ne _ _ hne
    · simp [hp] at h

theorem verifyStep_nonce {inChain : Hh → Bool} {allow : Bool} {acc acc' : VerifyAcc G O Hh (TributaryTxn G O Hh)}
    {tx : Transaction G O Hh}
    (h : verifyStep p.checks c.getAndIncrementNonce inChain allow acc tx = .ok acc') (signer : G) (order : O) :
    acc'.nonces.get (.nextNonce signer order) =
      match tx.kind with
      | .signed order' signer' nonce =>
        if order' = order ∧ signer' = signer then some (nonce + 1) else acc.nonces.get (.nextNonce signer order)
      | _ => acc.nonces.get (.nextNonce signer order) := by
  rcases verifyStep_nonces h with ⟨htm, hn⟩ | ⟨-, hverify⟩
  · rw [hn, tx.tendermint_unsigned htm]
  · exact verifyTransaction_nonce hverify signer order

theorem verifyLoop_nonce {inChain : Hh → Bool} {allow : Bool} {acc : VerifyAcc G O Hh (TributaryTxn G O Hh)}
    (h : b.transactions.foldlM (verifyStep p.checks c.getAndIncrementNonce inChain allow)
      ⟨0, [], c.provided, Db.begin c.db⟩ = .ok acc) (signer : G) (order : O) :
    acc.nonces.get (.nextNonce signer order) =
      nextNonceAfter signer order b.transactions (c.db (.nextNonce signer order)) :=
  foldlM_except_inv (fun pre (acc : VerifyAcc G O Hh (TributaryTxn G O Hh)) =>
      acc.nonces.get (.nextNonce signer order) = nextNonceAfter signer order pre (c.db (.nextNonce signer order)))
    b.transactions (fun pre tx post _ _ _ hpre hstep => by
      rw [verifyStep_nonce hstep, hpre]
      exact (nextNonceAfter_append signer order pre tx _).symm) rfl h

/-- What `add_block` marks of a transaction: a provided or unsigned one's hash as included. -/
def Marked (get : (k : Key G O Hh) → Option k.val) (tx : Transaction G O Hh) : Prop :=
  match tx.kind with
  | .provided _ => (get (.providedIncluded tx.hash)).isSome
  | .unsigned => (get (.unsignedIncluded tx.hash)).isSome
  | .signed .. => True

theorem complete_isSome {queues queues' : O → List (Transaction G O Hh)} {txn txn' : TributaryTxn G O Hh}
    {order : O} {block hash : Hh} (h : complete queues txn order block hash = .ok (txn', queues'))
    {k : Key G O Hh} (hk : (txn.get k).isSome) : (txn'.get k).isSome := by
  unfold complete at h
  obtain ⟨⟨txn₁, queues₁⟩, hpop, h⟩ := except_bind_ok h
  cases h
  have h₁ : (txn₁.get k).isSome := by
    unfold popProvided at hpop
    split at hpop
    · cases hpop
      exact hk
    · split at hpop
      · cases hpop
      · split at hpop
        · cases hpop
        · split at hpop
          · cases hpop
          · cases hpop
            exact isSome_get_put _ _ _ hk
  exact isSome_get_put _ _ _ (isSome_get_put _ _ _ (isSome_get_put _ _ _ h₁))

theorem includeTx_marked {tip : Hh} {inc inc' : Blockchain.Including G O Hh} {tx : Transaction G O Hh}
    (h : Blockchain.includeTx tip inc tx = .ok inc') :
    Marked inc'.txn.get tx ∧ ∀ t, Marked inc.txn.get t → Marked inc'.txn.get t := by
  have hkeep : ∀ t, (∀ k : Key G O Hh, (inc.txn.get k).isSome → (inc'.txn.get k).isSome) →
      Marked inc.txn.get t → Marked inc'.txn.get t := by
    intro t hk ht
    unfold Marked at ht ⊢
    split at ht
    · exact hk _ ht
    · exact hk _ ht
    · trivial
  unfold Blockchain.includeTx at h
  split at h
  · rename_i order hkind
    obtain ⟨⟨txn, provided⟩, hcomplete, h⟩ := except_bind_ok h
    cases h
    refine ⟨by simp [Marked, hkind], fun t => hkeep t fun k hk => ?_⟩
    exact isSome_get_put _ _ _ (complete_isSome hcomplete hk)
  · rename_i hkind
    obtain ⟨m, -, h⟩ := except_bind_ok h
    cases h
    exact ⟨by simp [Marked, hkind], fun t => hkeep t fun k hk => isSome_get_put _ _ _ hk⟩
  · rename_i order signer nonce hkind
    obtain ⟨m, -, h⟩ := except_bind_ok h
    cases h
    exact ⟨by simp [Marked, hkind], fun t => hkeep t fun k hk => isSome_get_put _ _ _ hk⟩

theorem verifyStep_of_inChain {σ : Type} {checks : Checks G O Hh} {gain : G → O → σ → Option UInt32 × σ}
    {inChain : Hh → Bool} {allow : Bool} {acc acc' : VerifyAcc G O Hh σ} {tx : Transaction G O Hh}
    (hin : inChain tx.hash = true) (hrank : tx.kind.rank < 2) :
    verifyStep checks gain inChain allow acc tx ≠ .ok acc' := by
  intro h
  unfold verifyStep at h
  cases hk : tx.kind with
  | provided order =>
    simp [hk, hin, bind, Except.bind, throw, throwThe, MonadExceptOf.throw] at h
  | unsigned =>
    simp [hk, hin, bind, Except.bind, throw, throwThe, MonadExceptOf.throw] at h
  | signed order signer nonce =>
    rw [hk] at hrank
    simp [TransactionKind.rank] at hrank

omit [DecidableEq G] [DecidableEq O] [DecidableEq Hh] in
theorem Marked.inChain {get : (k : Key G O Hh) → Option k.val} {tx : Transaction G O Hh}
    (h : Marked get tx) (hrank : tx.kind.rank < 2) :
    ((get (.unsignedIncluded tx.hash)).isSome || (get (.providedIncluded tx.hash)).isSome) = true := by
  unfold Marked at h
  split at h
  · simp [h]
  · simp [h]
  · rename_i hk
    rw [hk] at hrank
    simp [TransactionKind.rank] at hrank

theorem verifyBlock_of_inChain {allow : Bool} {tx : Transaction G O Hh} (htx : tx ∈ b.transactions)
    (hrank : tx.kind.rank < 2)
    (hin : ((c.db (.unsignedIncluded tx.hash)).isSome || (c.db (.providedIncluded tx.hash)).isSome) = true) :
    c.verifyBlock p b allow ≠ .ok () := by
  intro hv
  obtain ⟨acc, hloop⟩ := verifyBlock_loop hv
  obtain ⟨a, a', hstep⟩ := foldlM_except_mem hloop htx
  exact verifyStep_of_inChain hin hrank hstep

theorem addBlock_marked {c' : Blockchain G O Hh} (h : c.addBlock p b = .ok c') :
    ∀ tx ∈ b.transactions, Marked c'.db tx := by
  unfold Blockchain.addBlock at h
  split at h
  · cases h
  obtain ⟨acc, hloop, h⟩ := except_bind_ok h
  cases h
  -- the loop's invariant: every transaction done is marked
  exact foldlM_except_inv (fun pre (acc : Blockchain.Including G O Hh) => ∀ t ∈ pre, Marked acc.txn.get t)
    b.transactions (fun _ tx _ _ _ _ hpre hstep => by
      obtain ⟨hself, hkeep⟩ := includeTx_marked hstep
      intro t ht
      rcases List.mem_append.mp ht with ht | ht
      · exact hkeep t (hpre t ht)
      · rw [List.mem_singleton] at ht
        subst ht
        exact hself) (fun _ ht => by cases ht) hloop

theorem addBlock_of_verifyBlock (hinv : c.Inv) (hv : c.verifyBlock p b true = .ok ()) :
    ∃ c', c.addBlock p b = .ok c' := by
  obtain ⟨vacc, hloop⟩ := verifyBlock_loop hv
  -- `add_block`'s loop follows `verify_block`'s, transaction by transaction
  obtain ⟨inc, hinc, -⟩ := foldlM_except_sim (g := Blockchain.includeTx (b.hash p.enc)) Lockstep
    (fun _ _ _ _ hR hstep => includeTx_of_verifyStep (b.hash p.enc) hstep hR) b.transactions
    (t := ⟨Db.begin c.db, c.provided, c.mempool⟩) ⟨rfl, hinv.1, hinv.2⟩ hloop
  unfold Blockchain.addBlock
  rw [hv]
  exact ⟨_, by dsimp only; rw [except_bind_of_ok hinc]; rfl⟩

/-- In every state a chain reaches, `add_block` succeeds exactly when `verify_block` with
    non-local provided transactions allowed does, and fails only with its error. On success
    each next nonce is the one `verify_block`'s scratch counter reached, every provided and
    unsigned transaction of the block is marked included, so that a block repeating one
    fails verification, the tip is the block's hash and the block number is one more. -/
theorem add_block_agrees_with_verify (hreach : c.Reach p) :
    ((∃ c', c.addBlock p b = .ok c') ↔ c.verifyBlock p b true = .ok ()) ∧
      (∀ e, c.addBlock p b = .error e → ∃ e', e = .block e' ∧ c.verifyBlock p b true = .error e') ∧
      ∀ c', c.addBlock p b = .ok c' →
        (∃ acc, b.transactions.foldlM (verifyStep p.checks c.getAndIncrementNonce
            (fun hash => (c.db (.unsignedIncluded hash)).isSome || (c.db (.providedIncluded hash)).isSome) true)
            ⟨0, [], c.provided, Db.begin c.db⟩ = .ok acc ∧
          ∀ signer order, c'.db (.nextNonce signer order) = acc.nonces.get (.nextNonce signer order)) ∧
        (∀ tx ∈ b.transactions, Marked c'.db tx) ∧
        (∀ tx ∈ b.transactions, tx.kind.rank < 2 → ∀ (b₂ : Block G O Hh) allow tx₂, tx₂ ∈ b₂.transactions →
          tx₂.hash = tx.hash → tx₂.kind.rank < 2 → c'.verifyBlock p b₂ allow ≠ .ok ()) ∧
        c'.tip = b.hash p.enc ∧ c'.blockNumber = c.blockNumber + 1 := by
  have hinv := reach_inv hreach
  -- `add_block` starts with `verify_block`
  have hverify : ∀ c', c.addBlock p b = .ok c' → c.verifyBlock p b true = .ok () := by
    intro c' h
    unfold Blockchain.addBlock at h
    split at h
    · cases h
    · assumption
  refine ⟨⟨fun ⟨c', h⟩ => hverify c' h, addBlock_of_verifyBlock hinv⟩, fun e he => ?_, fun c' h => ?_⟩
  -- a failure is `verify_block`'s: past it, the block is added
  · cases hv : c.verifyBlock p b true with
    | error e' =>
      unfold Blockchain.addBlock at he
      rw [hv] at he
      cases he
      exact ⟨e', rfl, rfl⟩
    | ok u =>
      obtain ⟨c', hc'⟩ := addBlock_of_verifyBlock hinv hv
      rw [hc'] at he
      cases he
  · obtain ⟨vacc, hloop⟩ := verifyBlock_loop (hverify c' h)
    have hmarked := addBlock_marked h
    refine ⟨⟨vacc, hloop, fun signer order => ?_⟩, hmarked, ?_, ?_⟩
    · rw [addBlock_nextNonce h, verifyLoop_nonce hloop]
    -- a repeat has the hash of a marked transaction, whichever of the two kinds it has
    · intro tx htx hrank b₂ allow tx₂ htx₂ hhash hrank₂
      refine verifyBlock_of_inChain htx₂ hrank₂ ?_
      rw [hhash]
      exact (hmarked tx htx).inChain hrank
    · unfold Blockchain.addBlock at h
      split at h
      · cases h
      obtain ⟨acc, -, h⟩ := except_bind_ok h
      cases h
      exact ⟨rfl, rfl⟩

end Agreement

/-- Participants 7 and 8 each sign at nonce 0: 7 in orders 0 and 1, 8 in order 0. -/
def block1 : Block ℕ ℕ ℕ :=
  ⟨0, 0, [⟨false, 100, .signed 0 7 0, nofun⟩, ⟨false, 101, .signed 0 8 0, nofun⟩, ⟨false, 102, .signed 1 7 0, nofun⟩]⟩

/-- The chain of 7 and 8 after `block1`. -/
def signersChain : Blockchain ℕ ℕ ℕ :=
  match (Blockchain.new 0 [7, 8]).addBlock allValid block1 with
  | .ok c => c
  | .error _ => Blockchain.new 0 [7, 8]

/-- Evidence, then each signer's next nonce in each of its orders, on `block1`. -/
def block2 : Block ℕ ℕ ℕ :=
  ⟨1, 0, [⟨true, 103, .unsigned, fun _ => rfl⟩, ⟨false, 104, .signed 0 7 1, nofun⟩, ⟨false, 105, .signed 1 7 1, nofun⟩,
    ⟨false, 106, .signed 0 8 1, nofun⟩]⟩

theorem add_block_agrees_with_verify_signers :
    signersChain.verifyBlock allValid block2 true = .ok () ∧
    ((∃ c', signersChain.addBlock allValid block2 = .ok c') ↔ signersChain.verifyBlock allValid block2 true = .ok ()) ∧
      (∀ e, signersChain.addBlock allValid block2 = .error e →
        ∃ e', e = .block e' ∧ signersChain.verifyBlock allValid block2 true = .error e') ∧
      ∀ c', signersChain.addBlock allValid block2 = .ok c' →
        (∃ acc, block2.transactions.foldlM (verifyStep allValid.checks signersChain.getAndIncrementNonce
            (fun hash => (signersChain.db (.unsignedIncluded hash)).isSome ||
              (signersChain.db (.providedIncluded hash)).isSome) true)
            ⟨0, [], signersChain.provided, Db.begin signersChain.db⟩ = .ok acc ∧
          ∀ signer order, c'.db (.nextNonce signer order) = acc.nonces.get (.nextNonce signer order)) ∧
        (∀ tx ∈ block2.transactions, Marked c'.db tx) ∧
        (∀ tx ∈ block2.transactions, tx.kind.rank < 2 →
          ∀ (b₂ : Block ℕ ℕ ℕ) allow tx₂, tx₂ ∈ b₂.transactions → tx₂.hash = tx.hash → tx₂.kind.rank < 2 →
            c'.verifyBlock allValid b₂ allow ≠ .ok ()) ∧
        c'.tip = Block.hash allValid.enc block2 ∧ c'.blockNumber = signersChain.blockNumber + 1 := by
  have hok : ((Blockchain.new 0 [7, 8] : Blockchain ℕ ℕ ℕ).addBlock allValid block1).toBool = true := by decide
  -- `block1` is added, so the chain after it is reached
  have hstep : (Blockchain.new 0 [7, 8] : Blockchain ℕ ℕ ℕ).step allValid (.addBlock block1) = .ok signersChain := by
    cases h : (Blockchain.new 0 [7, 8] : Blockchain ℕ ℕ ℕ).addBlock allValid block1 with
    | ok c => simp only [Blockchain.step, signersChain, h]
    | error e => simp [h, Except.toBool] at hok
  have hreach : signersChain.Reach allValid := .step (.addBlock block1) (.new 0 [7, 8]) hstep
  exact ⟨by decide, add_block_agrees_with_verify hreach⟩

end Serai.Tributary
