import Mathlib
/-
  Serai.Lib.Layer — storage layers over calls with partial writes.

  A call runs in `EStateM ε σ`: it ends with a result or an error, and in both cases with
  the state its writes left, so an error raised after a write keeps the write. A storage
  layer (`layer`) discards the writes of a call that errs. `Prog` composes the calls of a
  primitive language: in sequence (an error stops the rest), in a layer, and in a layer
  whose error is dropped so that execution goes on (`skip`, a loop that skips its failed
  items).
  - `layer_error`: a layer that errs leaves the state it started from.
  - `run_ok_inv`: an invariant kept by every successful primitive call is kept by every
    successful run.
  - `layer_inv`: and by every run in a layer, whatever it ends with.
  - `forM_ok_inv`: and by a loop whose iterations keep it.
  - `KeepsOk`: what a call keeps when it succeeds, built up over `pure`, `bind`, `if`,
    `forM` and a change of error type (`adaptExcept_ok`: the call under it succeeded);
    `KeepsOk.layer`: in a layer it is kept whatever the call ends with.
  - `bind_ok`: a bind that succeeds ran its first call to success (`bind_of_ok` is the
    converse); with the `@[simp]` equations of `get`, `set`, `modify`, `pure` and
    `throw` this peels a `do` block one call at a time. `forM_modify`: a loop of writes
    is a fold.
  - `eq_ok_state`, `eq_error_state`: an outcome is determined by its kind and the state
    it leaves, so a run on a concrete input is settled by evaluating both.
  - `eq_error_of_exceptError`, `exists_ok_of_toOption`, `eq_ok_of_toOption`: the same for
    a run in `Except` whose result has no decidable equality.
  - `except_bind_error`, `foldlM_except_error`: an error of a bind or a fold in `Except`
    is one of its parts'.
  - `forM_except_ok`, `mapM_except_ok`: a loop or a map in `Except` succeeds when each
    iteration does; `foldlM_except_sim`: a fold that succeeds is matched by another run in
    lockstep with it; `foldlM_except_mem`: each item of a fold that succeeds had a
    successful iteration;
    `foldlM_except_inv` and `foldlM_except_of_step` are the invariant rules of a fold in
    `Except`, for what a successful loop leaves and for that it succeeds.
-/

namespace Serai.Lib

variable {ε σ α : Type}

/-- The state a call's outcome leaves. -/
def state : EStateM.Result ε σ α → σ
  | .ok _ s => s
  | .error _ s => s

/-- The error a call's outcome carries, if any. -/
def errorOf : EStateM.Result ε σ α → Option ε
  | .ok _ _ => none
  | .error e _ => some e

theorem eq_ok_state {r : EStateM.Result ε σ Unit} (h : errorOf r = none) : r = .ok () (state r) := by
  cases r with
  | ok u s => rfl
  | error e s => cases h

theorem eq_error_state {r : EStateM.Result ε σ α} {e : ε} (h : errorOf r = some e) : r = .error e (state r) := by
  cases r with
  | ok a s => cases h
  | error e' s => cases h; rfl

/-- A storage layer: the writes of a call that errs are discarded. -/
def layer (m : EStateM ε σ α) : EStateM ε σ α := fun s =>
  match m s with
  | .ok a s' => .ok a s'
  | .error e _ => .error e s

theorem layer_error {m : EStateM ε σ α} {s s' : σ} {e : ε} (h : layer m s = .error e s') : s' = s := by
  unfold layer at h
  split at h <;> cases h
  rfl

theorem layer_ok {m : EStateM ε σ α} {s s' : σ} {a : α} (h : layer m s = .ok a s') : m s = .ok a s' := by
  unfold layer at h
  split at h
  · cases h; assumption
  · cases h

/-- Programs over a primitive language `Op`. -/
inductive Prog (Op : Type) where
  | call (o : Op)
  | seq (p q : Prog Op)
  | layer (p : Prog Op)
  /-- A layer whose error is dropped: execution goes on from the state before it. -/
  | skip (p : Prog Op)

variable {Op : Type}

def Prog.run (exec : Op → EStateM ε σ Unit) : Prog Op → EStateM ε σ Unit
  | .call o => exec o
  | .seq p q => fun s =>
    match p.run exec s with
    | .ok _ s' => q.run exec s'
    | .error e s' => .error e s'
  | .layer p => Lib.layer (p.run exec)
  | .skip p => fun s =>
    match Lib.layer (p.run exec) s with
    | .ok _ s' => .ok () s'
    | .error _ s' => .ok () s'

section Inv

variable (exec : Op → EStateM ε σ Unit) (P : σ → Prop)

/-- `P` is kept by every primitive call that succeeds. -/
def OkClosed : Prop := ∀ o s s', P s → exec o s = .ok () s' → P s'

theorem run_ok_inv (hP : OkClosed exec P) :
    ∀ (p : Prog Op) (s s' : σ), P s → p.run exec s = .ok () s' → P s' := by
  intro p
  induction p with
  | call o => exact hP o
  | seq p q ihp ihq =>
    intro s s' hs h
    simp only [Prog.run] at h
    split at h
    · rename_i u hu
      exact ihq u s' (ihp s u hs hu) h
    · cases h
  | layer p ih => exact fun s s' hs h => ih s s' hs (layer_ok h)
  | skip p ih =>
    intro s s' hs h
    simp only [Prog.run] at h
    split at h
    · rename_i hl
      cases h
      exact ih s s' hs (layer_ok hl)
    · rename_i hl
      cases h
      rw [layer_error hl]
      exact hs

theorem layer_inv (hP : OkClosed exec P) (p : Prog Op) {s : σ} (hs : P s) :
    P (state ((Prog.layer p).run exec s)) := by
  cases h : (Prog.layer p).run exec s with
  | ok _ s' => exact run_ok_inv exec P hP (.layer p) s s' hs h
  | error e s' =>
    simp only [Prog.run] at h
    rw [layer_error h]
    exact hs

theorem forM_ok_inv {β : Type} (f : β → EStateM ε σ PUnit)
    (hf : ∀ x s s', P s → f x s = .ok ⟨⟩ s' → P s') :
    ∀ (l : List β) (s s' : σ), P s → l.forM f s = .ok ⟨⟩ s' → P s' := by
  intro l
  induction l with
  | nil =>
    intro s s' hs h
    cases h
    exact hs
  | cons x l ih =>
    intro s s' hs h
    simp only [List.forM, bind, EStateM.bind] at h
    split at h
    · rename_i u hu
      exact ih u s' (hf x s u hs hu) h
    · cases h

end Inv

/-! ## Calls -/

section Calls

variable {β : Type}

theorem bind_ok {x : EStateM ε σ α} {f : α → EStateM ε σ β} {s s' : σ} {b : β}
    (h : (x >>= f) s = .ok b s') : ∃ a s₁, x s = .ok a s₁ ∧ f a s₁ = .ok b s' := by
  simp only [bind, EStateM.bind] at h
  split at h
  · rename_i a s₁ hx
    exact ⟨a, s₁, hx, h⟩
  · cases h

theorem adaptExcept_ok {ε' : Type} {f : ε → ε'} {m : EStateM ε σ α} {s s' : σ} {a : α}
    (h : EStateM.adaptExcept f m s = .ok a s') : m s = .ok a s' := by
  cases hr : m s with
  | ok b t =>
    simp only [EStateM.adaptExcept, hr, EStateM.Result.ok.injEq] at h
    obtain ⟨rfl, rfl⟩ := h
    rfl
  | error e t => simp only [EStateM.adaptExcept, hr, reduceCtorEq] at h

theorem bind_of_ok {x : EStateM ε σ α} {f : α → EStateM ε σ β} {s s₁ : σ} {a : α}
    (h : x s = .ok a s₁) : (x >>= f) s = f a s₁ := by
  simp only [bind, EStateM.bind, h]

@[simp] theorem get_bind (f : σ → EStateM ε σ β) (s : σ) : (get >>= f) s = f s s := rfl

@[simp] theorem set_bind (f : PUnit → EStateM ε σ β) (s t : σ) : (set t >>= f) s = f ⟨⟩ t := rfl

@[simp] theorem modify_bind (g : σ → σ) (f : PUnit → EStateM ε σ β) (s : σ) :
    (modify g >>= f) s = f ⟨⟩ (g s) := rfl

@[simp] theorem pure_apply (a : α) (s : σ) : (pure a : EStateM ε σ α) s = .ok a s := rfl

@[simp] theorem throw_apply (e : ε) (s : σ) : (throw e : EStateM ε σ α) s = .error e s := rfl

@[simp] theorem set_apply (s t : σ) : (set t : EStateM ε σ PUnit) s = .ok ⟨⟩ t := rfl

@[simp] theorem modify_apply (g : σ → σ) (s : σ) : (modify g : EStateM ε σ PUnit) s = .ok ⟨⟩ (g s) := rfl

theorem forM_modify (l : List β) (g : β → σ → σ) (s : σ) :
    (l.forM fun x => (modify (g x) : EStateM ε σ PUnit)) s = .ok ⟨⟩ (l.foldl (fun s x => g x s) s) := by
  induction l generalizing s with
  | nil => rfl
  | cons x l ih => exact ih (g x s)

end Calls

/-! ## What a successful call keeps -/

section Keeps

variable {β : Type} (P : σ → Prop)

/-- `m` keeps `P` whenever it succeeds. -/
def KeepsOk (m : EStateM ε σ α) : Prop := ∀ s a s', P s → m s = .ok a s' → P s'

variable {P}

theorem KeepsOk.pure (a : α) : KeepsOk P (Pure.pure a : EStateM ε σ α) := by
  intro s b s' hs h
  cases h
  exact hs

theorem KeepsOk.throw (e : ε) : KeepsOk P (MonadExcept.throw e : EStateM ε σ α) := by
  intro s a s' _ h
  cases h

theorem KeepsOk.get : KeepsOk P (MonadState.get : EStateM ε σ σ) := by
  intro s a s' hs h
  cases h
  exact hs

theorem KeepsOk.bind {x : EStateM ε σ α} {f : α → EStateM ε σ β} (hx : KeepsOk P x)
    (hf : ∀ a, KeepsOk P (f a)) : KeepsOk P (x >>= f) := by
  intro s b s' hs h
  obtain ⟨a, s₁, h₁, h₂⟩ := bind_ok h
  exact hf a s₁ b s' (hx s a s₁ hs h₁) h₂

theorem KeepsOk.ite {c : Prop} [Decidable c] {x y : EStateM ε σ α} (hx : KeepsOk P x) (hy : KeepsOk P y) :
    KeepsOk P (if c then x else y) := by
  split
  · exact hx
  · exact hy

theorem KeepsOk.forM {f : β → EStateM ε σ PUnit} (hf : ∀ b, KeepsOk P (f b)) :
    ∀ l : List β, KeepsOk P (l.forM f)
  | [] => KeepsOk.pure _
  | b :: l => KeepsOk.bind (hf b) fun _ => KeepsOk.forM hf l

theorem KeepsOk.adaptExcept {ε' : Type} {m : EStateM ε σ α} (f : ε → ε') (hm : KeepsOk P m) :
    KeepsOk P (EStateM.adaptExcept f m) :=
  fun s a s' hs h => hm s a s' hs (adaptExcept_ok h)

/-- A layer around a call that keeps `P` keeps it whatever the call ends with. -/
theorem KeepsOk.layer {m : EStateM ε σ α} (hm : KeepsOk P m) {s : σ} (hs : P s) : P (state (layer m s)) := by
  unfold Lib.layer
  split
  · exact hm s _ _ hs (by assumption)
  · exact hs

end Keeps

/-! ## Loops in `Except` -/

theorem except_bind_ok {α β : Type} {x : Except ε α} {f : α → Except ε β} {b : β} (h : (x >>= f) = .ok b) :
    ∃ a, x = .ok a ∧ f a = .ok b := by
  cases hx : x with
  | error e => simp [hx, bind, Except.bind] at h
  | ok a => exact ⟨a, rfl, by simpa [hx, bind, Except.bind] using h⟩

theorem except_bind_of_ok {α β : Type} {x : Except ε α} {f : α → Except ε β} {a : α} (h : x = .ok a) :
    (x >>= f) = f a := by
  rw [h]
  rfl

theorem except_bind_error {α β : Type} {x : Except ε α} {f : α → Except ε β} {e : ε} (h : (x >>= f) = .error e) :
    x = .error e ∨ ∃ a, x = .ok a ∧ f a = .error e := by
  cases hx : x with
  | error e' =>
    rw [hx] at h
    cases h
    exact .inl rfl
  | ok a =>
    rw [hx] at h
    exact .inr ⟨a, rfl, h⟩

theorem foldlM_except_error {σ β : Type} {step : σ → β → Except ε σ} (P : ε → Prop)
    (hstep : ∀ s x e, step s x = .error e → P e) : ∀ (l : List β) (s : σ) (e : ε), l.foldlM step s = .error e → P e := by
  intro l
  induction l with
  | nil =>
    intro s e h
    cases h
  | cons x l ih =>
    intro s e h
    rcases except_bind_error h with h₁ | ⟨s₁, -, h₂⟩
    · exact hstep s x e h₁
    · exact ih s₁ e h₂

theorem foldlM_except_ok {α β : Type} {f : β → α → Except ε β} {g : β → α → β} {l : List α}
    (h : ∀ b, ∀ a ∈ l, f b a = .ok (g b a)) (init : β) : l.foldlM f init = .ok (l.foldl g init) := by
  induction l generalizing init with
  | nil => rfl
  | cons a l ih =>
    rw [List.foldlM_cons, h init a List.mem_cons_self, List.foldl_cons]
    exact ih (fun b a' ha' => h b a' (List.mem_cons_of_mem _ ha')) _

theorem mapM_except_ok {α β : Type} {f : α → Except ε β} {g : α → β} {l : List α}
    (h : ∀ a ∈ l, f a = .ok (g a)) : l.mapM f = .ok (l.map g) := by
  induction l with
  | nil => rfl
  | cons a l ih =>
    rw [List.mapM_cons, h a List.mem_cons_self, ih fun a' ha' => h a' (List.mem_cons_of_mem _ ha')]
    rfl

theorem mapM_cons_except_ok {α β : Type} {f : α → Except ε β} {a : α} {l : List α} {bs : List β}
    (h : (a :: l).mapM f = .ok bs) : ∃ b bs', f a = .ok b ∧ l.mapM f = .ok bs' ∧ bs = b :: bs' := by
  rw [List.mapM_cons] at h
  obtain ⟨b, hb, h⟩ := except_bind_ok h
  obtain ⟨bs', hbs', h⟩ := except_bind_ok h
  exact ⟨b, bs', hb, hbs', (Except.ok.inj h).symm⟩

theorem mapM_except_exists {α β : Type} {f : α → Except ε β} {l : List α} (h : ∀ a ∈ l, ∃ b, f a = .ok b) :
    ∃ bs, l.mapM f = .ok bs := by
  induction l with
  | nil => exact ⟨[], rfl⟩
  | cons a l ih =>
    obtain ⟨b, hb⟩ := h a List.mem_cons_self
    obtain ⟨bs, hbs⟩ := ih fun a' ha' => h a' (List.mem_cons_of_mem _ ha')
    refine ⟨b :: bs, ?_⟩
    rw [List.mapM_cons, except_bind_of_ok hb, except_bind_of_ok hbs]
    rfl

theorem except_bind_exists {α β : Type} {x : Except ε α} {f : α → Except ε β} (hx : ∃ a, x = .ok a)
    (hf : ∀ a, x = .ok a → ∃ b, f a = .ok b) : ∃ b, (x >>= f) = .ok b := by
  obtain ⟨a, ha⟩ := hx
  obtain ⟨b, hb⟩ := hf a ha
  exact ⟨b, by rw [except_bind_of_ok ha, hb]⟩

/-- The error an `Except` carries, if any; decidable where the result's type is not, so a
    run on a concrete input that fails is settled by evaluating it. -/
def exceptError {α : Type} : Except ε α → Option ε
  | .ok _ => none
  | .error e => some e

theorem eq_error_of_exceptError {α : Type} {r : Except ε α} {e : ε} (h : exceptError r = some e) :
    r = .error e := by
  cases r with
  | ok a => cases h
  | error e' => cases h; rfl

theorem exists_ok_of_toOption {α β : Type} {r : Except ε α} {f : α → β} {b : β} (h : r.toOption.map f = some b) :
    ∃ a, r = .ok a ∧ f a = b := by
  cases r with
  | ok a => exact ⟨a, rfl, Option.some.inj h⟩
  | error e => cases h

theorem eq_ok_of_toOption {α : Type} {r : Except ε α} {a : α} (h : r.toOption = some a) : r = .ok a := by
  cases r with
  | ok a' =>
    cases h
    rfl
  | error e => cases h

theorem foldlM_except_inv {σ β : Type} {step : σ → β → Except ε σ} (P : List β → σ → Prop) (l : List β)
    (hstep : ∀ pre x post s s', pre ++ x :: post = l → P pre s → step s x = .ok s' → P (pre ++ [x]) s')
    {s s' : σ} (hs : P [] s) (h : l.foldlM step s = .ok s') : P l s' := by
  suffices ∀ post pre s, pre ++ post = l → P pre s → post.foldlM step s = .ok s' → P l s' from
    this l [] s rfl hs h
  intro post
  induction post with
  | nil =>
    intro pre s hpre hs h
    cases h
    simpa [← hpre] using hs
  | cons x post ih =>
    intro pre s hpre hs h
    obtain ⟨s₁, h₁, h₂⟩ := except_bind_ok h
    exact ih (pre ++ [x]) s₁ (by simp [← hpre]) (hstep pre x post s s₁ hpre hs h₁) h₂

theorem foldlM_except_of_step {σ β : Type} {step : σ → β → Except ε σ} (P : List β → σ → Prop) (l : List β)
    (hstep : ∀ pre x post s, pre ++ x :: post = l → P pre s → ∃ s', step s x = .ok s' ∧ P (pre ++ [x]) s')
    {s : σ} (hs : P [] s) : ∃ s', l.foldlM step s = .ok s' ∧ P l s' := by
  suffices ∀ post pre s, pre ++ post = l → P pre s → ∃ s', post.foldlM step s = .ok s' ∧ P l s' from
    this l [] s rfl hs
  intro post
  induction post with
  | nil =>
    intro pre s hpre hs
    exact ⟨s, rfl, by simpa [← hpre] using hs⟩
  | cons x post ih =>
    intro pre s hpre hs
    obtain ⟨s₁, h₁, hP⟩ := hstep pre x post s hpre hs
    obtain ⟨s', h₂, hP'⟩ := ih (pre ++ [x]) s₁ (by simp [← hpre]) hP
    refine ⟨s', ?_, hP'⟩
    simp only [List.foldlM_cons, bind, Except.bind, h₁]
    exact h₂

theorem foldlM_except_sim {ε' σ τ β : Type} {f : σ → β → Except ε σ} {g : τ → β → Except ε' τ}
    (R : σ → τ → Prop) (hstep : ∀ s t x s', R s t → f s x = .ok s' → ∃ t', g t x = .ok t' ∧ R s' t') :
    ∀ (l : List β) {s : σ} {t : τ} {s' : σ}, R s t → l.foldlM f s = .ok s' →
      ∃ t', l.foldlM g t = .ok t' ∧ R s' t' := by
  intro l
  induction l with
  | nil =>
    intro s t s' hR h
    cases h
    exact ⟨t, rfl, hR⟩
  | cons x l ih =>
    intro s t s' hR h
    obtain ⟨s₁, h₁, h₂⟩ := except_bind_ok h
    obtain ⟨t₁, hg, hR₁⟩ := hstep s t x s₁ hR h₁
    obtain ⟨t', hl, hR'⟩ := ih hR₁ h₂
    exact ⟨t', by rw [List.foldlM_cons, except_bind_of_ok hg, hl], hR'⟩

theorem foldlM_except_mem {σ β : Type} {step : σ → β → Except ε σ} {l : List β} {s s' : σ}
    (h : l.foldlM step s = .ok s') {x : β} (hx : x ∈ l) : ∃ a b, step a x = .ok b := by
  induction l generalizing s with
  | nil => cases hx
  | cons y l ih =>
    obtain ⟨s₁, h₁, h₂⟩ := except_bind_ok h
    rcases List.mem_cons.mp hx with rfl | hx
    · exact ⟨s, s₁, h₁⟩
    · exact ih h₂ hx

theorem forM_except_ok {β : Type} (l : List β) (g : β → Except ε PUnit) :
    l.forM g = .ok ⟨⟩ ↔ ∀ x ∈ l, g x = .ok ⟨⟩ := by
  induction l with
  | nil => exact ⟨fun _ _ h => (nomatch h), fun _ => rfl⟩
  | cons x l ih =>
    simp only [List.mem_cons, forall_eq_or_imp]
    cases hx : g x with
    | error e => simp [hx, bind, Except.bind]
    | ok u => simpa [hx, bind, Except.bind] using ih

end Serai.Lib
