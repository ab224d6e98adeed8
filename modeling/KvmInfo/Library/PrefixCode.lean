import Mathlib.Tactic

namespace PrefixCode

variable {α β : Type}

def IsLongest (P : List β → Prop) (s p : List β) : Prop :=
  p <+: s ∧ P p ∧ ∀ q, q <+: s → P q → q.length ≤ p.length

theorem IsLongest.unique {P : List β → Prop} {s p q : List β} (h : IsLongest P s p)
    (h' : IsLongest P s q) : p = q := by
  have hlen : p.length = q.length := (h'.2.2 p h.1 h.2.1).antisymm (h.2.2 q h'.1 h'.2.1)
  exact (List.prefix_of_prefix_length_le h.1 h'.1 hlen.le).eq_of_length hlen

theorem exists_isLongest {P : List β → Prop} (hnil : P []) (s : List β) : ∃ p, IsLongest P s p := by
  induction s using List.reverseRecOn with
  | nil => exact ⟨[],List.prefix_rfl,hnil,fun q hq _ => hq.length_le⟩
  | append_singleton s b ih =>
    by_cases h : P (s ++ [b])
    · exact ⟨s ++ [b],List.prefix_rfl,h,fun q hq _ => hq.length_le⟩
    · obtain ⟨p,hp,hP,hmax⟩ := ih
      refine ⟨p,hp.trans (List.prefix_append s [b]),hP,fun q hq hQ => ?_⟩
      rcases List.prefix_concat_iff.mp hq with rfl | hq
      · exact absurd hQ h
      · exact hmax q hq hQ

structure Code (α β : Type) where
  word : α → List β
  nonempty : ∀ a, word a ≠ []
  free : ∀ {a b s t}, word a ++ s = word b ++ t → a = b

namespace Code
variable (c : Code α β)

def spell (l : List α) : List β := l.flatMap c.word

def Starts (P : α → Prop) (s : List β) : Prop := ∃ a t, P a ∧ s = c.word a ++ t

@[simp] theorem spell_nil : c.spell [] = [] := rfl

@[simp] theorem spell_cons (a : α) (l : List α) : c.spell (a :: l) = c.word a ++ c.spell l := rfl

@[simp] theorem spell_append (l l' : List α) : c.spell (l ++ l') = c.spell l ++ c.spell l' :=
  List.flatMap_append

theorem spell_eq_nil {l : List α} : c.spell l = [] ↔ l = [] := by
  cases l with
  | nil => simp
  | cons a l => simp [c.nonempty a]

theorem spell_prefix {l l' : List α} (h : l <+: l') : c.spell l <+: c.spell l' := by
  obtain ⟨r,rfl⟩ := h
  exact ⟨c.spell r,(c.spell_append l r).symm⟩

theorem exists_spell (P : α → Prop) (s : List β) :
    ∃ l t, s = c.spell l ++ t ∧ (∀ a ∈ l, P a) ∧ ¬c.Starts P t := by
  induction hn : s.length using Nat.strong_induction_on generalizing s with
  | _ n ih =>
    by_cases h : c.Starts P s
    · obtain ⟨a,t,ha,rfl⟩ := h
      have hpos := List.length_pos_iff.mpr (c.nonempty a)
      rw [List.length_append] at hn
      obtain ⟨l,u,rfl,hl,hu⟩ := ih t.length (by omega) t rfl
      exact ⟨a :: l,u,by simp,by simpa using ⟨ha,hl⟩,hu⟩
    · exact ⟨[],s,rfl,by simp,h⟩

variable {c} {P : α → Prop}

theorem prefix_of_spelled {l l' : List α} {t : List β} (hl : ∀ a ∈ l, P a)
    (ht : ¬c.Starts P t) (h : c.spell l <+: c.spell l' ++ t) : l <+: l' := by
  induction l generalizing l' with
  | nil => exact List.nil_prefix
  | cons a l ih =>
    obtain ⟨r,hr⟩ := h
    rw [spell_cons,List.append_assoc] at hr
    cases l' with
    | nil => exact absurd ⟨a,_,hl a (by simp),hr.symm⟩ ht
    | cons b l' =>
      rw [spell_cons,List.append_assoc] at hr
      obtain rfl := c.free hr
      have hrest : l <+: l' :=
        ih (fun b hb => hl b (by simp [hb])) ⟨r,List.append_cancel_left hr⟩
      exact (List.prefix_cons_inj a).mpr hrest

theorem spell_unique {l l' : List α} {t t' : List β} (hl : ∀ a ∈ l, P a) (hl' : ∀ a ∈ l', P a)
    (ht : ¬c.Starts P t) (ht' : ¬c.Starts P t') (h : c.spell l ++ t = c.spell l' ++ t') :
    l = l' ∧ t = t' := by
  have hle : l <+: l' := prefix_of_spelled hl ht' ⟨t,h⟩
  have hge : l' <+: l := prefix_of_spelled hl' ht ⟨t',h.symm⟩
  obtain rfl := hle.eq_of_length_le hge.length_le
  exact ⟨rfl,List.append_cancel_left h⟩

theorem spell_isLongest {l : List α} {t : List β} (hl : ∀ a ∈ l, P a) (ht : ¬c.Starts P t) :
    IsLongest (fun q => ∃ l', (∀ a ∈ l', P a) ∧ q = c.spell l') (c.spell l ++ t) (c.spell l) := by
  refine ⟨List.prefix_append _ _,⟨l,hl,rfl⟩,?_⟩
  rintro _ hq ⟨l',hl',rfl⟩
  exact (c.spell_prefix (prefix_of_spelled hl' ht hq)).length_le

theorem prefix_spell {l : List α} {q : List β} (h : q <+: c.spell l) :
    ∃ l' w, l' <+: l ∧ q = c.spell l' ++ w ∧ (w = [] ∨ ∃ a, w <+: c.word a ∧ w ≠ c.word a) := by
  induction l generalizing q with
  | nil => exact ⟨[],[],List.prefix_rfl,List.prefix_nil.mp h,Or.inl rfl⟩
  | cons a l ih =>
    obtain ⟨r,hr⟩ := h
    rw [spell_cons] at hr
    rcases List.append_eq_append_iff.mp hr with ⟨u,ha,-⟩ | ⟨u,rfl,hl⟩
    · by_cases hq : q = c.word a
      · exact ⟨[a],[],by simp,by simp [hq],Or.inl rfl⟩
      · exact ⟨[],q,List.nil_prefix,rfl,Or.inr ⟨a,⟨u,ha.symm⟩,hq⟩⟩
    · obtain ⟨l',w,hl',rfl,hw⟩ := ih ⟨r,hl.symm⟩
      exact ⟨a :: l',w,(List.prefix_cons_inj a).mpr hl',by simp,hw⟩

end Code
end PrefixCode
