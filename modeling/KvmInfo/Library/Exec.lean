import Mathlib.Tactic

namespace Exec

variable {φ σ ι α β : Type}

abbrev Prog (φ σ α : Type) := StateT σ (Except φ) α

def Runs (m : Prog φ σ α) (s : σ) (a : α) (t : σ) : Prop := m s = .ok (a,t)

def Faults (m : Prog φ σ α) (s : σ) (e : φ) : Prop := m s = .error e

theorem runs_pure {a : α} {s : σ} : Runs (pure a : Prog φ σ α) s a s := rfl

theorem runs_get {s : σ} : Runs (get : Prog φ σ σ) s s s := rfl

theorem runs_modify {f : σ → σ} {s : σ} : Runs (modify f : Prog φ σ PUnit) s ⟨⟩ (f s) := rfl

theorem faults_throw {e : φ} {s : σ} : Faults (throw e : Prog φ σ α) s e := rfl

theorem runs_bind_iff {m : Prog φ σ α} {f : α → Prog φ σ β} {s u : σ} {b : β} :
    Runs (m >>= f) s b u ↔ ∃ a t, Runs m s a t ∧ Runs (f a) t b u := by
  simp only [Runs,bind,StateT.bind,Except.bind]
  cases m s with
  | error e => simp
  | ok r =>
    constructor
    · intro h
      exact ⟨r.1,r.2,rfl,h⟩
    · rintro ⟨a,t,hr,h⟩
      cases hr
      exact h

theorem Runs.bind {m : Prog φ σ α} {f : α → Prog φ σ β} {s t u : σ} {a : α} {b : β}
    (hm : Runs m s a t) (hf : Runs (f a) t b u) : Runs (m >>= f) s b u :=
  runs_bind_iff.mpr ⟨a,t,hm,hf⟩

theorem Runs.bind_eq {m : Prog φ σ α} {f : α → Prog φ σ β} {s t : σ} {a : α}
    (hm : Runs m s a t) : (m >>= f) s = f a t := by
  rw [Runs] at hm
  simp only [Bind.bind,StateT.bind,Except.bind,hm]

theorem bind_eq_of_eq {m m' : Prog φ σ α} {f : α → Prog φ σ β} {s : σ} (h : m s = m' s) :
    (m >>= f) s = (m' >>= f) s := by
  simp only [Bind.bind,StateT.bind,h]

theorem Runs.bind_faults {m : Prog φ σ α} {f : α → Prog φ σ β} {s t : σ} {a : α} {e : φ}
    (hm : Runs m s a t) (hf : Faults (f a) t e) : Faults (m >>= f) s e := by
  rw [Runs] at hm
  rw [Faults] at hf ⊢
  simp only [Bind.bind,StateT.bind,Except.bind,hm,hf]

theorem Faults.bind {m : Prog φ σ α} {f : α → Prog φ σ β} {s : σ} {e : φ} (hm : Faults m s e) :
    Faults (m >>= f) s e := by
  rw [Faults] at hm ⊢
  simp only [Bind.bind,StateT.bind,Except.bind,hm]

theorem Runs.functional {m : Prog φ σ α} {s t u : σ} {a b : α} (h : Runs m s a t)
    (h' : Runs m s b u) : a = b ∧ t = u := by
  rw [Runs] at h h'
  rw [h] at h'
  cases h'
  exact ⟨rfl,rfl⟩

theorem Runs.not_faults {m : Prog φ σ α} {s t : σ} {a : α} {e : φ} (h : Runs m s a t) :
    ¬Faults m s e := by
  intro h'
  rw [Runs] at h
  rw [Faults,h] at h'
  cases h'

inductive Run (step : σ → ι → σ → Prop) : σ → List (σ × ι × σ) → σ → Prop where
  | nil (s : σ) : Run step s [] s
  | cons {s t u : σ} {i : ι} {steps : List (σ × ι × σ)} (h : step s i t) (hs : Run step t steps u) :
      Run step s ((s,i,t) :: steps) u

theorem Run.mem_step {step : σ → ι → σ → Prop} {s u : σ} {steps : List (σ × ι × σ)}
    (h : Run step s steps u) : ∀ x ∈ steps, step x.1 x.2.1 x.2.2 := by
  induction h with
  | nil s => simp
  | cons h hs ih =>
    intro x hx
    rcases List.mem_cons.mp hx with rfl | hx
    · exact h
    · exact ih x hx

theorem Run.invariant {step : σ → ι → σ → Prop} {I : σ → Prop} {s u : σ}
    {steps : List (σ × ι × σ)} (h : Run step s steps u) (hs : I s)
    (hstep : ∀ x ∈ steps, I x.1 → I x.2.2) : I u := by
  induction h with
  | nil s => exact hs
  | cons h hs' ih =>
    simp only [List.mem_cons,forall_eq_or_imp] at hstep
    exact ih (hstep.1 hs) hstep.2

theorem Run.throughout {step : σ → ι → σ → Prop} {I : σ → Prop} {s u : σ}
    {steps : List (σ × ι × σ)} (h : Run step s steps u) (hs : I s)
    (hstep : ∀ s i t, step s i t → I s → I t) : (∀ x ∈ steps, I x.2.2) ∧ I u := by
  induction h with
  | nil s => exact ⟨by simp,hs⟩
  | @cons s t u i steps h hs' ih =>
    have ht := hstep s i t h hs
    obtain ⟨hsteps,hu⟩ := ih ht
    exact ⟨List.forall_mem_cons.mpr ⟨ht,hsteps⟩,hu⟩

theorem Run.before {step : σ → ι → σ → Prop} {I : σ → Prop} {s u : σ}
    {steps : List (σ × ι × σ)} (h : Run step s steps u) (hs : I s)
    (hstep : ∀ s i t, step s i t → I s → I t) : ∀ x ∈ steps, I x.1 := by
  induction h with
  | nil s => simp
  | @cons s t u i steps h hs' ih => exact List.forall_mem_cons.mpr ⟨hs,ih (hstep s i t h hs)⟩

theorem Run.count {step : σ → ι → σ → Prop} {M : Type} [AddCommMonoidWithOne M] {s u : σ}
    {steps : List (σ × ι × σ)} (h : Run step s steps u) (size : σ → M) (counted : σ × ι × σ → Bool)
    (hsize : ∀ x ∈ steps, size x.2.2 = size x.1 + if counted x then 1 else 0) :
    size u = size s + (steps.countP counted : M) := by
  induction h with
  | nil s => simp
  | @cons s t u i steps h hs ih =>
    obtain ⟨hfirst,hrest⟩ := List.forall_mem_cons.mp hsize
    have ht : size t = size s + if counted (s,i,t) then 1 else 0 := hfirst
    rw [ih hrest,ht,List.countP_cons,Nat.cast_add,add_assoc,add_comm (steps.countP counted : M)]
    split_ifs <;> simp

end Exec
