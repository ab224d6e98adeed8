import KvmInfo.Library.Exec

namespace Exec

variable {φ σ α β : Type} {P P' : σ → Prop} {Q Q' : α → σ → Prop} {R : β → σ → Prop}
variable {E E' : φ → Prop} {m : Prog φ σ α} {f : α → Prog φ σ β}

theorem faults_bind_iff {s : σ} {e : φ} :
    Faults (m >>= f) s e ↔ Faults m s e ∨ ∃ a t, Runs m s a t ∧ Faults (f a) t e := by
  simp only [Faults,Runs,bind,StateT.bind,Except.bind]
  cases m s with
  | error e' => simp
  | ok r =>
    constructor
    · intro h
      exact Or.inr ⟨r.1,r.2,rfl,h⟩
    · rintro (h | ⟨a,t,hr,h⟩)
      · cases h
      · cases hr
        exact h

def Triple (P : σ → Prop) (m : Prog φ σ α) (Q : α → σ → Prop) (E : φ → Prop) : Prop :=
  ∀ s, P s → (∀ a t, Runs m s a t → Q a t) ∧ ∀ e, Faults m s e → E e

theorem triple_of_runs (h : ∀ s, P s → ∀ a t, Runs m s a t → Q a t) :
    Triple P m Q (fun _ => True) :=
  fun s hs => ⟨h s hs,fun _ _ => trivial⟩

theorem triple_pure {a : α} (h : ∀ s, P s → Q a s) : Triple P (pure a) Q E := by
  intro s hs
  refine ⟨?_,?_⟩
  · intro b t hr
    cases hr
    exact h s hs
  · intro e hf
    cases hf

theorem triple_throw {e : φ} (h : ∀ s, P s → E e) : Triple P (throw e) Q E := by
  intro s hs
  refine ⟨?_,?_⟩
  · intro a t hr
    cases hr
  · intro e' hf
    cases hf
    exact h s hs

theorem Triple.bind (hm : Triple P m Q E) (hf : ∀ a, Triple (Q a) (f a) R E) :
    Triple P (m >>= f) R E := by
  intro s hs
  refine ⟨?_,?_⟩
  · intro b u hr
    obtain ⟨a,t,hr,hr'⟩ := runs_bind_iff.mp hr
    exact (hf a t ((hm s hs).1 a t hr)).1 b u hr'
  · intro e he
    rcases faults_bind_iff.mp he with he | ⟨a,t,hr,he⟩
    · exact (hm s hs).2 e he
    · exact (hf a t ((hm s hs).1 a t hr)).2 e he

theorem Triple.weaken (hm : Triple P m Q E) (hP : ∀ s, P' s → P s)
    (hQ : ∀ a s, Q a s → Q' a s) (hE : ∀ e, E e → E' e) : Triple P' m Q' E' := by
  intro s hs
  obtain ⟨hok,herr⟩ := hm s (hP s hs)
  exact ⟨fun a t hr => hQ a t (hok a t hr),fun e he => hE e (herr e he)⟩

theorem Triple.post (hm : Triple P m Q E) (hQ : ∀ a s, Q a s → Q' a s) : Triple P m Q' E :=
  hm.weaken (fun _ h => h) hQ (fun _ h => h)

theorem Triple.pre (hm : Triple P m Q E) (hP : ∀ s, P' s → P s) : Triple P' m Q E :=
  hm.weaken hP (fun _ _ h => h) (fun _ h => h)

section runs
variable {c : σ → Prop} [DecidablePred c] {m m' : Prog φ σ β} {s t : σ} {b : β}

theorem runs_if_pos (hc : c s) (h : Runs m s b t) :
    Runs (get >>= fun s => if c s then m else m') s b t := by
  refine runs_get.bind ?_
  rw [if_pos hc]
  exact h

theorem runs_if_neg (hc : ¬c s) (h : Runs m' s b t) :
    Runs (get >>= fun s => if c s then m else m') s b t := by
  refine runs_get.bind ?_
  rw [if_neg hc]
  exact h

theorem faults_if_pos {e : φ} (hc : c s) (h : Faults m s e) :
    Faults (get >>= fun s => if c s then m else m') s e := by
  refine runs_get.bind_faults ?_
  rw [if_pos hc]
  exact h

theorem faults_if_neg {e : φ} (hc : ¬c s) (h : Faults m' s e) :
    Faults (get >>= fun s => if c s then m else m') s e := by
  refine runs_get.bind_faults ?_
  rw [if_neg hc]
  exact h

end runs

theorem triple_get {f : σ → Prog φ σ β} (h : ∀ s, P s → Triple (fun t => t = s) (f s) R E) :
    Triple P (get >>= f) R E := by
  intro s hs
  refine ⟨?_,?_⟩
  · intro b u hr
    obtain ⟨a,t,hr,hr'⟩ := runs_bind_iff.mp hr
    cases hr
    exact (h s hs s rfl).1 b u hr'
  · intro e he
    rcases faults_bind_iff.mp he with he | ⟨a,t,hr,he⟩
    · cases he
    · cases hr
      exact (h s hs s rfl).2 e he

theorem triple_if {c : σ → Prop} [DecidablePred c] {m m' : Prog φ σ β}
    (h : Triple (fun s => P s ∧ c s) m R E) (h' : Triple (fun s => P s ∧ ¬c s) m' R E) :
    Triple P (get >>= fun s => if c s then m else m') R E := by
  refine triple_get fun s hs => ?_
  split_ifs with hc
  · exact h.pre fun t ht => ht ▸ ⟨hs,hc⟩
  · exact h'.pre fun t ht => ht ▸ ⟨hs,hc⟩

theorem triple_fix (h : ∀ s, P s → Triple (fun t => t = s) m Q E) : Triple P m Q E :=
  fun s hs => h s hs s rfl

theorem triple_set {s' : σ} {Q : PUnit → σ → Prop} (h : ∀ s, P s → Q ⟨⟩ s') :
    Triple P (set s' : Prog φ σ PUnit) Q E := by
  intro s hs
  refine ⟨?_,?_⟩
  · intro a t hr
    cases hr
    exact h s hs
  · intro e hf
    cases hf

theorem triple_absurd (h : ∀ s, ¬P s) : Triple P m Q E := fun s hs => absurd hs (h s)

section keeps
variable {γ : Type} {v : σ → γ}

def Keeps (v : σ → γ) (m : Prog φ σ α) : Prop := ∀ s a t, Runs m s a t → v t = v s

theorem keeps_pure (a : α) : Keeps v (pure a : Prog φ σ α) := by
  intro s b t hr
  cases hr
  rfl

theorem keeps_throw (e : φ) : Keeps v (throw e : Prog φ σ α) := by
  intro s b t hr
  cases hr

theorem keeps_get : Keeps v (get : Prog φ σ σ) := by
  intro s b t hr
  cases hr
  rfl

theorem Keeps.bind (hm : Keeps v m) (hf : ∀ a, Keeps v (f a)) : Keeps v (m >>= f) := by
  intro s b u hr
  obtain ⟨a,t,hr,hr'⟩ := runs_bind_iff.mp hr
  exact (hf a t b u hr').trans (hm s a t hr)

theorem keeps_ite {c : Prop} [Decidable c] {m m' : Prog φ σ α} (hm : Keeps v m) (hm' : Keeps v m') :
    Keeps v (if c then m else m') := by
  split_ifs
  · exact hm
  · exact hm'

theorem Keeps.triple (hm : Keeps v m) (P : γ → Prop) :
    Triple (fun s => P (v s)) m (fun _ s => P (v s)) (fun _ => True) := by
  apply triple_of_runs
  intro s hs a t hr
  rw [hm s a t hr]
  exact hs

end keeps

end Exec
