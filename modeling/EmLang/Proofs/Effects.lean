import Mathlib.Order.Nat
import Mathlib.Tactic.Common

/-!
What holds after steps that pass a state on. `Post act s Q` says that `act`, begun in the state `s`,
ends with a value and a state of which `Q` holds.
-/

namespace EmLang

/-- What holds of the value and of the state that steps begun in `s` end with. -/
def Post {σ α : Type} (act : StateM σ α) (s : σ) (Q : α → σ → Prop) : Prop :=
  Q (act.run s).1 (act.run s).2

variable {σ α β : Type} {s : σ}

lemma Post.imp {act : StateM σ α} {Q R : α → σ → Prop} (h : Post act s Q)
    (hi : ∀ a t, Q a t → R a t) : Post act s R :=
  hi _ _ h

lemma Post.and {act : StateM σ α} {Q R : α → σ → Prop} (h : Post act s Q) (h' : Post act s R) :
    Post act s fun a t => Q a t ∧ R a t :=
  ⟨h, h'⟩

lemma post_pure (a : α) (Q : α → σ → Prop) : Post (pure a) s Q ↔ Q a s := Iff.rfl

lemma post_bind (act : StateM σ α) (next : α → StateM σ β) (Q : β → σ → Prop) :
    Post (act >>= next) s Q ↔ Post act s fun a t => Post (next a) t Q := Iff.rfl

lemma post_map (act : StateM σ α) (f : α → β) (Q : β → σ → Prop) :
    Post (f <$> act) s Q ↔ Post act s fun a t => Q (f a) t := Iff.rfl

lemma post_get (Q : σ → σ → Prop) : Post get s Q ↔ Q s s := Iff.rfl

lemma post_set (t : σ) (Q : PUnit → σ → Prop) : Post (set t) s Q ↔ Q ⟨⟩ t := Iff.rfl

lemma post_modify (f : σ → σ) (Q : PUnit → σ → Prop) : Post (modify f) s Q ↔ Q ⟨⟩ (f s) :=
  Iff.rfl

lemma post_ite (c : Prop) [Decidable c] (x y : StateM σ α) (Q : α → σ → Prop) :
    Post (if c then x else y) s Q ↔ (c → Post x s Q) ∧ (¬ c → Post y s Q) := by
  split <;> simp_all

lemma post_forM_nil (f : α → StateM σ PUnit) (Q : PUnit → σ → Prop) :
    Post (List.forM [] f) s Q ↔ Q ⟨⟩ s := Iff.rfl

lemma post_forM_cons (a : α) (as : List α) (f : α → StateM σ PUnit) (Q : PUnit → σ → Prop) :
    Post (List.forM (a :: as) f) s Q ↔ Post (f a) s fun _ t => Post (as.forM f) t Q := Iff.rfl

lemma post_foldlM_cons (f : β → α → StateM σ β) (b : β) (a : α) (as : List α) (Q : β → σ → Prop) :
    Post (List.foldlM f b (a :: as)) s Q ↔ Post (f b a) s fun b' t => Post (as.foldlM f b') t Q := Iff.rfl

/-! ### Steps that can fail -/

/-- What holds after steps begun in `s` that can fail: `Q` of the value and the state they end with,
or `F` of the fault and the state in which it arises. -/
def Ends {ε σ α : Type} (act : ExceptT ε (StateM σ) α) (s : σ) (Q : α → σ → Prop) (F : ε → σ → Prop) : Prop :=
  match act.run.run s with
  | (.ok a, t) => Q a t
  | (.error e, t) => F e t

section

variable {ε σ α β : Type} {s : σ} {F : ε → σ → Prop}

variable {act : ExceptT ε (StateM σ) α} {Q R : α → σ → Prop}

section

variable (h : Ends act s Q F)

include h

lemma Ends.imp {G : ε → σ → Prop} (hi : ∀ a t, Q a t → R a t) (hf : ∀ e t, F e t → G e t) : Ends act s R G := by
  unfold Ends at h ⊢
  generalize act.run.run s = result at h ⊢
  obtain ⟨_ | _, t⟩ := result
  · exact hf _ t h
  · exact hi _ t h

lemma Ends.mono (hi : ∀ a t, Q a t → R a t) : Ends act s R F :=
  h.imp hi fun _ _ h => h

lemma Ends.and {G : ε → σ → Prop} (h' : Ends act s R G) :
    Ends act s (fun a t => Q a t ∧ R a t) fun e t => F e t ∧ G e t := by
  unfold Ends at h h' ⊢
  generalize act.run.run s = result at h h' ⊢
  obtain ⟨_ | _, t⟩ := result
  · exact ⟨h, h'⟩
  · exact ⟨h, h'⟩

lemma Ends.of_ok {a : α} {t : σ} (run : act.run.run s = (.ok a, t)) : Q a t := by
  unfold Ends at h
  rw [run] at h
  exact h

lemma Ends.of_error {t : σ} {e : ε} (run : act.run.run s = (.error e, t)) : F e t := by
  unfold Ends at h
  rw [run] at h
  exact h

end

lemma ends_self (act : ExceptT ε (StateM σ) α) (s : σ) :
    Ends act s (fun a t => act.run.run s = (.ok a, t)) fun e t => act.run.run s = (.error e, t) := by
  unfold Ends
  generalize act.run.run s = result
  obtain ⟨_ | _, t⟩ := result <;> rfl

lemma Ends.run_eq {result : Except ε α × σ} (h : Ends act s (fun a t => result = (.ok a, t))
      fun e t => result = (.error e, t)) : act.run.run s = result := by
  unfold Ends at h
  revert h
  generalize act.run.run s = given
  obtain ⟨_ | _, t⟩ := given <;> exact fun h => h.symm

lemma ends_pure (a : α) (Q : α → σ → Prop) : Ends (pure a : ExceptT ε (StateM σ) α) s Q F ↔ Q a s := Iff.rfl

lemma ends_throw (e : ε) (Q : α → σ → Prop) : Ends (throw e : ExceptT ε (StateM σ) α) s Q F ↔ F e s := Iff.rfl

lemma ends_bind (act : ExceptT ε (StateM σ) α) (next : α → ExceptT ε (StateM σ) β) (Q : β → σ → Prop) :
    Ends (act >>= next) s Q F ↔ Ends act s (fun a t => Ends (next a) t Q F) F := by
  unfold Ends
  simp only [ExceptT.run_bind, StateT.run_bind]
  generalize act.run.run s = result
  obtain ⟨_ | _, t⟩ := result <;> rfl

lemma ends_map (act : ExceptT ε (StateM σ) α) (f : α → β) (Q : β → σ → Prop) :
    Ends (f <$> act) s Q F ↔ Ends act s (fun a t => Q (f a) t) F := by
  unfold Ends
  simp only [ExceptT.run_map, StateT.run_map]
  generalize act.run.run s = result
  obtain ⟨_ | _, t⟩ := result <;> rfl

lemma ends_get (Q : σ → σ → Prop) : Ends (get : ExceptT ε (StateM σ) σ) s Q F ↔ Q s s := Iff.rfl

lemma ends_set (t : σ) (Q : PUnit → σ → Prop) : Ends (set t : ExceptT ε (StateM σ) PUnit) s Q F ↔
    Q ⟨⟩ t := Iff.rfl

lemma ends_modify (f : σ → σ) (Q : PUnit → σ → Prop) :
    Ends (modify f : ExceptT ε (StateM σ) PUnit) s Q F ↔ Q ⟨⟩ (f s) := Iff.rfl

lemma ends_modifyGet (f : σ → α × σ) (Q : α → σ → Prop) :
    Ends (modifyGet f : ExceptT ε (StateM σ) α) s Q F ↔ Q (f s).1 (f s).2 := Iff.rfl

lemma ends_ite (c : Prop) [Decidable c] (x y : ExceptT ε (StateM σ) α) (Q : α → σ → Prop) :
    Ends (if c then x else y) s Q F ↔ (c → Ends x s Q F) ∧ (¬ c → Ends y s Q F) := by
  split <;> simp_all

lemma ends_forM_nil (f : α → ExceptT ε (StateM σ) PUnit) (Q : PUnit → σ → Prop) :
    Ends (List.forM [] f) s Q F ↔ Q ⟨⟩ s := Iff.rfl

lemma ends_forM_cons (a : α) (as : List α) (f : α → ExceptT ε (StateM σ) PUnit) (Q : PUnit → σ → Prop) :
    Ends (List.forM (a :: as) f) s Q F ↔ Ends (f a) s (fun _ t => Ends (as.forM f) t Q F) F :=
  ends_bind (f a) (fun _ => as.forM f) Q

end

end EmLang
