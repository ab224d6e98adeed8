import KvmInfo.Library.Hoare

namespace Exec

variable {φ σ α β : Type} {bot : φ}

section approx
variable {m m' m'' : Prog φ σ α} {f f' : α → Prog φ σ β}

def Approx (bot : φ) (m m' : Prog φ σ α) : Prop := ∀ s, Faults m s bot ∨ m s = m' s

theorem Approx.refl (m : Prog φ σ α) : Approx bot m m := fun _ => Or.inr rfl

theorem approx_throw : Approx bot (throw bot) m := fun _ => Or.inl rfl

theorem Approx.trans (h : Approx bot m m') (h' : Approx bot m' m'') : Approx bot m m'' := by
  intro s
  rcases h s with hb | he
  · exact Or.inl hb
  · rcases h' s with hb | he'
    · exact Or.inl (he.trans hb)
    · exact Or.inr (he.trans he')

theorem Approx.bind (hm : Approx bot m m') (hf : ∀ a, Approx bot (f a) (f' a)) :
    Approx bot (m >>= f) (m' >>= f') := by
  intro s
  rcases hm s with hb | he
  · exact Or.inl (Faults.bind hb)
  · cases hr : m s with
    | error e =>
      rw [hr] at he
      refine Or.inr ?_
      simp only [Bind.bind,StateT.bind,Except.bind,hr,← he]
    | ok r =>
      rw [hr] at he
      rcases hf r.1 r.2 with hb | he'
      · exact Or.inl (Runs.bind_faults hr hb)
      · refine Or.inr ?_
        simp only [Bind.bind,StateT.bind,Except.bind,hr,← he,he']

theorem approx_bind_left (hf : ∀ a, Approx bot (f a) (f' a)) :
    Approx bot (m >>= f) (m >>= f') :=
  (Approx.refl m).bind hf

theorem Approx.ite {c : Prop} [Decidable c] {n n' : Prog φ σ α} (h : Approx bot m m')
    (h' : Approx bot n n') : Approx bot (if c then m else n) (if c then m' else n') := by
  split
  · exact h
  · exact h'

theorem Approx.runs {s t : σ} {a : α} (h : Approx bot m m') (hr : Runs m s a t) :
    Runs m' s a t := by
  rcases h s with hb | he
  · exact absurd hb hr.not_faults
  · exact he.symm.trans hr

theorem approx_le {g : ℕ → Prog φ σ α} (h : ∀ n, Approx bot (g n) (g (n + 1))) {n k : ℕ}
    (hnk : n ≤ k) : Approx bot (g n) (g k) := by
  induction hnk with
  | refl => exact Approx.refl _
  | step _ ih => exact ih.trans (h _)

theorem faults_or_runs {g : ℕ → Prog φ σ α} (h : ∀ n, Approx bot (g n) (g (n + 1))) {k : ℕ}
    {s t : σ} {a : α} (hr : Runs (g k) s a t) (n : ℕ) : Faults (g n) s bot ∨ Runs (g n) s a t := by
  rcases le_total n k with hle | hle
  · rcases approx_le h hle s with hf | heq
    · exact Or.inl hf
    · exact Or.inr (heq.trans hr)
  · exact Or.inr ((approx_le h hle).runs hr)

theorem faults_bind_of {f : α → Prog φ σ β} {s t : σ} {a : α}
    (h : Faults m s bot ∨ Runs m s a t) (hf : Faults (f a) t bot) : Faults (m >>= f) s bot := by
  rcases h with h | h
  · exact h.bind
  · exact h.bind_faults hf

end approx

section agree
variable {P : σ → Prop} {Q : α → σ → Prop} {m m' : Prog φ σ α} {f f' : α → Prog φ σ β}

def AgreeOn (P : σ → Prop) (m m' : Prog φ σ α) : Prop := ∀ s, P s → m s = m' s

theorem AgreeOn.refl (m : Prog φ σ α) : AgreeOn P m m := fun _ _ => rfl

theorem AgreeOn.bind {E : φ → Prop} (hm : AgreeOn P m m') (ht : Triple P m Q E)
    (hf : ∀ a, AgreeOn (Q a) (f a) (f' a)) : AgreeOn P (m >>= f) (m' >>= f') := by
  intro s hs
  have he := hm s hs
  cases hr : m s with
  | error e =>
    rw [hr] at he
    simp only [Bind.bind,StateT.bind,Except.bind,hr,← he]
  | ok r =>
    rw [hr] at he
    have hf' := hf r.1 r.2 ((ht s hs).1 _ _ hr)
    simp only [Bind.bind,StateT.bind,Except.bind,hr,← he,hf']

theorem agree_bind_left {E : φ → Prop} (ht : Triple P m Q E)
    (hf : ∀ a, AgreeOn (Q a) (f a) (f' a)) : AgreeOn P (m >>= f) (m >>= f') :=
  (AgreeOn.refl m).bind ht hf

theorem agree_get {f f' : σ → Prog φ σ β} (h : ∀ s, P s → AgreeOn (fun t => t = s) (f s) (f' s)) :
    AgreeOn P (get >>= f) (get >>= f') :=
  fun s hs => h s hs s rfl

theorem agree_if {c : σ → Prop} [DecidablePred c] {m m' n n' : Prog φ σ β}
    (h : AgreeOn (fun s => P s ∧ c s) m n) (h' : AgreeOn (fun s => P s ∧ ¬c s) m' n') :
    AgreeOn P (get >>= fun s => if c s then m else m') (get >>= fun s => if c s then n else n') := by
  refine agree_get fun s hs => ?_
  rintro _ rfl
  split_ifs with hc
  · exact h _ ⟨hs,hc⟩
  · exact h' _ ⟨hs,hc⟩

theorem AgreeOn.pre {P' : σ → Prop} (h : AgreeOn P m m') (hP : ∀ s, P' s → P s) :
    AgreeOn P' m m' :=
  fun s hs => h s (hP s hs)

end agree

end Exec
