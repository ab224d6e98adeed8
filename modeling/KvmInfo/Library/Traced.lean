import KvmInfo.Library.Exec

namespace Tracing
open Exec

variable {φ σ ε α β : Type}

def Traced (φ σ ε α : Type) := σ → List ε × Except φ (α × σ)

def andThen (t : Traced φ σ ε α) (f : α → Traced φ σ ε β) : Traced φ σ ε β := fun s =>
  match t s with
  | (log,.error e) => (log,.error e)
  | (log,.ok (a,u)) => (log ++ (f a u).1,(f a u).2)

instance : Monad (Traced φ σ ε) where
  pure a s := ([],.ok (a,s))
  bind := andThen

def perform (m : Prog φ σ α) : Traced φ σ ε α := fun s => ([],m s)

def record (e : ε) : Traced φ σ ε PUnit := fun s => ([e],.ok (⟨⟩,s))

def erase (t : Traced φ σ ε α) : Prog φ σ α := fun s => (t s).2

def Yields (t : Traced φ σ ε α) (s : σ) (log : List ε) (a : α) (u : σ) : Prop :=
  t s = (log,.ok (a,u))

def Aborts (t : Traced φ σ ε α) (s : σ) (log : List ε) (e : φ) : Prop := t s = (log,.error e)

def Records (t : Traced φ σ ε α) (P : ε → Prop) : Prop := ∀ s, ∀ e ∈ (t s).1, P e

section erase

@[simp] theorem erase_pure (a : α) : erase (pure a : Traced φ σ ε α) = pure a := rfl

@[simp] theorem erase_perform (m : Prog φ σ α) : erase (perform m : Traced φ σ ε α) = m := rfl

@[simp] theorem erase_bind (t : Traced φ σ ε α) (f : α → Traced φ σ ε β) :
    erase (t >>= f) = erase t >>= fun a => erase (f a) := by
  funext s
  simp only [Bind.bind,erase,andThen,StateT.bind,Except.bind]
  cases t s with
  | mk log r => cases r <;> rfl

@[simp] theorem erase_record (e : ε) : erase (record e : Traced φ σ ε PUnit) = pure ⟨⟩ := rfl

end erase

section yields
variable {t : Traced φ σ ε α} {f : α → Traced φ σ ε β} {s u v : σ} {log log' : List ε}
variable {a : α} {b : β} {e : φ}

theorem yields_pure : Yields (pure a : Traced φ σ ε α) s [] a s := rfl

theorem yields_perform {m : Prog φ σ α} (h : Runs m s a u) :
    Yields (perform m : Traced φ σ ε α) s [] a u :=
  congrArg (Prod.mk []) h

theorem aborts_perform {m : Prog φ σ α} (h : Faults m s e) :
    Aborts (perform m : Traced φ σ ε α) s [] e :=
  congrArg (Prod.mk []) h

theorem Yields.bind (h : Yields t s log a u) (hf : Yields (f a) u log' b v) :
    Yields (t >>= f) s (log ++ log') b v := by
  rw [Yields] at h hf
  simp only [Yields,Bind.bind,andThen,h,hf]

theorem Yields.bind_aborts (h : Yields t s log a u) (hf : Aborts (f a) u log' e) :
    Aborts (t >>= f) s (log ++ log') e := by
  rw [Yields] at h
  rw [Aborts] at hf
  simp only [Aborts,Bind.bind,andThen,h,hf]

theorem Aborts.bind (h : Aborts t s log e) : Aborts (t >>= f) s log e := by
  rw [Aborts] at h
  simp only [Aborts,Bind.bind,andThen,h]

end yields

section steps
variable {f : α → Traced φ σ ε β} {g : PUnit → Traced φ σ ε β} {m : Prog φ σ α} {s u v : σ}
variable {log : List ε} {a : α} {b : β} {x : ε} {e : φ}

theorem yields_after (h : Runs m s a u) (hf : Yields (f a) u log b v) :
    Yields (perform m >>= f) s log b v :=
  (yields_perform h).bind hf

theorem aborts_after (h : Runs m s a u) (hf : Aborts (f a) u log e) :
    Aborts (perform m >>= f) s log e :=
  (yields_perform h).bind_aborts hf

theorem yields_record (h : Yields (g ⟨⟩) s log b v) :
    Yields (record x >>= g) s (x :: log) b v := by
  have hx : Yields (record x : Traced φ σ ε PUnit) s [x] ⟨⟩ s := rfl
  exact hx.bind h

end steps

section erased
variable {t : Traced φ σ ε α} {m : Prog φ σ α} {s u : σ} {log : List ε} {a : α} {e : φ}

theorem Yields.runs (h : Yields t s log a u) (he : erase t = m) : Runs m s a u := by
  rw [← he]
  exact congrArg Prod.snd h

theorem Aborts.faults (h : Aborts t s log e) (he : erase t = m) : Faults m s e := by
  rw [← he]
  exact congrArg Prod.snd h

theorem yields_of_runs (h : Runs m s a u) (he : erase t = m) : Yields t s (t s).1 a u := by
  have hresult : (t s).2 = .ok (a,u) := by
    rw [Runs,← he] at h
    exact h
  exact Prod.ext rfl hresult

theorem erased_eq (he : erase t = m) (s : σ) : t s = ((t s).1,m s) :=
  Prod.ext rfl (congrFun he s)

theorem Yields.log_eq (h : Yields t s log a u) : (t s).1 = log := congrArg Prod.fst h

end erased

section records
variable {t : Traced φ σ ε α} {f : α → Traced φ σ ε β} {P : ε → Prop}

theorem records_pure (a : α) : Records (pure a : Traced φ σ ε α) P := by
  intro s e he
  cases he

theorem records_perform (m : Prog φ σ α) : Records (perform m : Traced φ σ ε α) P := by
  intro s e he
  cases he

theorem Records.bind (h : Records t P) (hf : ∀ a, Records (f a) P) : Records (t >>= f) P := by
  intro s e he
  have ht := h s
  simp only [Bind.bind,andThen] at he
  cases hr : t s with
  | mk log r =>
    rw [hr] at he ht
    cases r with
    | error err => exact ht e he
    | ok r =>
      rcases List.mem_append.mp he with he | he
      · exact ht e he
      · exact hf r.1 r.2 e he

theorem records_after {m : Prog φ σ α} (hf : ∀ a, Records (f a) P) : Records (perform m >>= f) P :=
  (records_perform m).bind hf

theorem records_record {x : ε} {g : PUnit → Traced φ σ ε β} (hx : P x) (hg : Records (g ⟨⟩) P) :
    Records (record x >>= g) P := by
  have hrecord : Records (record x : Traced φ σ ε PUnit) P := by
    intro s e he
    rwa [List.mem_singleton.mp he]
  exact hrecord.bind (fun _ => hg)

end records
end Tracing
