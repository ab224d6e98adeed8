import Mathlib.Computability.Language
import Mathlib.Logic.Function.Basic
import Mathlib.Tactic

namespace Backtrack

inductive Regex (α : Type) where
  | set (p : α → Bool)
  | seq (r s : Regex α)
  | alt (r s : Regex α)
  | opt (greedy : Bool) (r : Regex α)
  | star (greedy : Bool) (r : Regex α)
  | group (n : ℕ) (r : Regex α)

structure State (α : Type) where
  rest : List α
  caps : ℕ → List α

variable {α β : Type}

def State.start (s : List α) : State α := ⟨s,fun _ => []⟩

def prefer (greedy : Bool) (more : List β) (stop : β) : List β :=
  if greedy then more ++ [stop] else stop :: more

def iterate (greedy : Bool) (step : State α → List (State α)) : ℕ → State α → List (State α)
  | 0, st => [st]
  | n + 1, st =>
      prefer greedy
        (((step st).filter (fun t => t.rest.length < st.rest.length)).flatMap
          (iterate greedy step n)) st

def consumed (st t : State α) : List α := st.rest.take (st.rest.length - t.rest.length)

namespace Regex

def plus (r : Regex α) : Regex α := .seq r (.star true r)

def run : Regex α → State α → List (State α)
  | .set p, st =>
      match st.rest with
      | [] => []
      | a :: as => if p a then [{ st with rest := as }] else []
  | .seq r s, st => (run r st).flatMap (run s)
  | .alt r s, st => run r st ++ run s st
  | .opt greedy r, st => prefer greedy (run r st) st
  | .star greedy r, st => iterate greedy (run r) st.rest.length st
  | .group n r, st =>
      (run r st).map (fun t => { t with caps := Function.update t.caps n (consumed st t) })

def lang : Regex α → Language α
  | .set p => {w | ∃ a, p a = true ∧ w = [a]}
  | .seq r s => lang r * lang s
  | .alt r s => lang r + lang s
  | .opt _ r => lang r + 1
  | .star _ r => KStar.kstar (lang r)
  | .group _ r => lang r

def groups : Regex α → List ℕ
  | .set _ => []
  | .seq r s => groups r ++ groups s
  | .alt r s => groups r ++ groups s
  | .opt _ r => groups r
  | .star _ r => groups r
  | .group n r => n :: groups r

def letters (P : α → Prop) : Regex α → Prop
  | .set p => ∀ a, p a = true → P a
  | .seq r s => letters P r ∧ letters P s
  | .alt r s => letters P r ∧ letters P s
  | .opt _ r => letters P r
  | .star _ r => letters P r
  | .group _ r => letters P r

def first (r : Regex α) (st : State α) (k : State α → Option β) : Option β :=
  (r.run st).findSome? k

def fullMatch (r : Regex α) (s : List α) : Option (State α) :=
  (r.run (State.start s)).find? (fun t => t.rest.isEmpty)

end Regex

theorem mem_prefer {greedy : Bool} {more : List β} {stop x : β} :
    x ∈ prefer greedy more stop ↔ x ∈ more ∨ x = stop := by
  cases greedy <;> simp [prefer,or_comm]

theorem consumed_eq {st t : State α} {w : List α} (h : st.rest = w ++ t.rest) :
    consumed st t = w := by
  simp [consumed,h]

theorem cut_unique {P : α → Prop} {xs ys us vs : List α} (hx : ∀ a ∈ xs, P a)
    (hy : ∀ a ∈ ys, P a) (hu : ∀ a ∈ us.head?, ¬P a) (hv : ∀ a ∈ vs.head?, ¬P a)
    (h : xs ++ us = ys ++ vs) : xs = ys ∧ us = vs := by
  induction xs generalizing ys with
  | nil =>
    cases ys with
    | nil => exact ⟨rfl,h⟩
    | cons y ys =>
      have hus : us = y :: (ys ++ vs) := h
      exact absurd (hy y (by simp)) (hu y (by simp [hus]))
  | cons x xs ih =>
    cases ys with
    | nil =>
      have hvs : vs = x :: (xs ++ us) := h.symm
      exact absurd (hx x (by simp)) (hv x (by simp [hvs]))
    | cons y ys =>
      simp only [List.mem_cons,forall_eq_or_imp] at hx hy
      obtain ⟨rfl,htail⟩ := List.cons.inj h
      obtain ⟨hxy,huv⟩ := ih hx.2 hy.2 htail
      exact ⟨by rw [hxy],huv⟩

theorem iterate_caps {greedy : Bool} {step : State α → List (State α)} {m : ℕ}
    (hstep : ∀ st t, t ∈ step st → t.caps m = st.caps m) (n : ℕ) (st t : State α)
    (ht : t ∈ iterate greedy step n st) : t.caps m = st.caps m := by
  induction n generalizing st with
  | zero =>
    have : t = st := by simpa [iterate] using ht
    rw [this]
  | succ n ih =>
    rcases mem_prefer.mp ht with hmore | rfl
    · obtain ⟨u,hu,htu⟩ := List.mem_flatMap.mp hmore
      exact (ih u htu).trans (hstep st u (List.mem_filter.mp hu).1)
    · rfl

theorem iterate_sound {greedy : Bool} {step : State α → List (State α)} {L : Language α}
    (hstep : ∀ st t, t ∈ step st → ∃ w ∈ L, st.rest = w ++ t.rest) (n : ℕ) (st t : State α)
    (ht : t ∈ iterate greedy step n st) :
    ∃ w ∈ (KStar.kstar L : Language α), st.rest = w ++ t.rest := by
  induction n generalizing st with
  | zero =>
    have : t = st := by simpa [iterate] using ht
    subst this
    exact ⟨[],Language.nil_mem_kstar L,rfl⟩
  | succ n ih =>
    rcases mem_prefer.mp ht with hmore | rfl
    · obtain ⟨u,hu,htu⟩ := List.mem_flatMap.mp hmore
      obtain ⟨v,hv,hsv⟩ := hstep st u (List.mem_filter.mp hu).1
      obtain ⟨w,hw,huw⟩ := ih u htu
      refine ⟨v ++ w,?_,by rw [hsv,huw,List.append_assoc]⟩
      rw [← Language.one_add_self_mul_kstar_eq_kstar]
      exact Or.inr (Language.append_mem_mul hv hw)
    · exact ⟨[],Language.nil_mem_kstar L,rfl⟩

theorem iterate_complete {greedy : Bool} {step : State α → List (State α)} {L : Language α}
    (hstep : ∀ (st : State α) (w u : List α), w ∈ L → st.rest = w ++ u → ∃ t ∈ step st, t.rest = u)
    (ws : List (List α)) (hws : ∀ w ∈ ws, w ∈ L ∧ w ≠ []) (n : ℕ) (st : State α) (u : List α)
    (hn : st.rest.length ≤ n) (hst : st.rest = ws.flatten ++ u) :
    ∃ t ∈ iterate greedy step n st, t.rest = u := by
  induction ws generalizing n st with
  | nil =>
    have hu : st.rest = u := by simpa using hst
    cases n with
    | zero => exact ⟨st,by simp [iterate],hu⟩
    | succ n => exact ⟨st,mem_prefer.mpr (Or.inr rfl),hu⟩
  | cons w ws ih =>
    obtain ⟨hw,hne⟩ := hws w (by simp)
    have hpos : 0 < w.length := List.length_pos_iff.mpr hne
    have hsplit : st.rest = w ++ (ws.flatten ++ u) := by simpa using hst
    obtain ⟨v,hv,hvr⟩ := hstep st w _ hw hsplit
    have hlt : v.rest.length < st.rest.length := by rw [hsplit,hvr]; simp; omega
    cases n with
    | zero => omega
    | succ n =>
      obtain ⟨t,ht,htu⟩ := ih (fun x hx => hws x (by simp [hx])) n v (by omega) hvr
      refine ⟨t,mem_prefer.mpr (Or.inl (List.mem_flatMap.mpr ⟨v,?_,ht⟩)),htu⟩
      simpa [hv] using hlt

namespace Regex

theorem mem_run_set {p : α → Bool} {st t : State α} (ht : t ∈ (set p).run st) :
    ∃ a, p a = true ∧ st.rest = a :: t.rest ∧ t.caps = st.caps := by
  simp only [run] at ht
  cases hs : st.rest with
  | nil => simp [hs] at ht
  | cons a as =>
    rw [hs] at ht
    by_cases hp : p a = true
    · have : t = { st with rest := as } := by simpa [hp] using ht
      exact ⟨a,hp,by simp [this],by rw [this]⟩
    · simp [hp] at ht

theorem run_sound (r : Regex α) (st t : State α) (ht : t ∈ r.run st) :
    ∃ w ∈ r.lang, st.rest = w ++ t.rest := by
  induction r generalizing st t with
  | set p =>
    obtain ⟨a,ha,hs,-⟩ := mem_run_set ht
    exact ⟨[a],⟨a,ha,rfl⟩,hs⟩
  | seq r s ihr ihs =>
    obtain ⟨u,hu,htu⟩ := List.mem_flatMap.mp ht
    obtain ⟨v,hv,hsv⟩ := ihr st u hu
    obtain ⟨w,hw,huw⟩ := ihs u t htu
    exact ⟨v ++ w,Language.append_mem_mul hv hw,by rw [hsv,huw,List.append_assoc]⟩
  | alt r s ihr ihs =>
    rcases List.mem_append.mp ht with h | h
    · obtain ⟨w,hw,hs⟩ := ihr st t h
      exact ⟨w,Or.inl hw,hs⟩
    · obtain ⟨w,hw,hs⟩ := ihs st t h
      exact ⟨w,Or.inr hw,hs⟩
  | opt greedy r ih =>
    rcases mem_prefer.mp ht with h | rfl
    · obtain ⟨w,hw,hs⟩ := ih st t h
      exact ⟨w,Or.inl hw,hs⟩
    · exact ⟨[],Or.inr rfl,rfl⟩
  | star greedy r ih => exact iterate_sound ih _ st t ht
  | group n r ih =>
    obtain ⟨u,hu,rfl⟩ := List.mem_map.mp ht
    exact ih st u hu

theorem run_complete (r : Regex α) (st : State α) (w u : List α) (hw : w ∈ r.lang)
    (hst : st.rest = w ++ u) : ∃ t ∈ r.run st, t.rest = u := by
  induction r generalizing st w u with
  | set p =>
    obtain ⟨a,hp,rfl⟩ := hw
    exact ⟨{ st with rest := u },by simp [run,hst,hp],rfl⟩
  | seq r s ihr ihs =>
    obtain ⟨a,ha,b,hb,rfl⟩ := Language.mem_mul.mp hw
    obtain ⟨v,hv,hvr⟩ := ihr st a (b ++ u) ha (by rw [hst,List.append_assoc])
    obtain ⟨t,ht,htu⟩ := ihs v b u hb hvr
    exact ⟨t,List.mem_flatMap.mpr ⟨v,hv,ht⟩,htu⟩
  | alt r s ihr ihs =>
    rcases hw with h | h
    · obtain ⟨t,ht,htu⟩ := ihr st w u h hst
      exact ⟨t,List.mem_append.mpr (Or.inl ht),htu⟩
    · obtain ⟨t,ht,htu⟩ := ihs st w u h hst
      exact ⟨t,List.mem_append.mpr (Or.inr ht),htu⟩
  | opt greedy r ih =>
    rcases hw with h | h
    · obtain ⟨t,ht,htu⟩ := ih st w u h hst
      exact ⟨t,mem_prefer.mpr (Or.inl ht),htu⟩
    · have hnil : w = [] := h
      exact ⟨st,mem_prefer.mpr (Or.inr rfl),by rw [hst,hnil,List.nil_append]⟩
  | star greedy r ih =>
    obtain ⟨ws,rfl,hws⟩ := Language.mem_kstar_iff_exists_nonempty.mp hw
    exact iterate_complete ih ws hws _ st u le_rfl hst
  | group n r ih =>
    obtain ⟨t,ht,htu⟩ := ih st w u hw hst
    exact ⟨_,List.mem_map.mpr ⟨t,ht,rfl⟩,htu⟩

theorem run_caps (r : Regex α) (m : ℕ) (hm : m ∉ r.groups) (st t : State α)
    (ht : t ∈ r.run st) : t.caps m = st.caps m := by
  induction r generalizing st t with
  | set p =>
    obtain ⟨a,-,-,hc⟩ := mem_run_set ht
    rw [hc]
  | seq r s ihr ihs =>
    simp only [groups,List.mem_append,not_or] at hm
    obtain ⟨u,hu,htu⟩ := List.mem_flatMap.mp ht
    exact (ihs hm.2 u t htu).trans (ihr hm.1 st u hu)
  | alt r s ihr ihs =>
    simp only [groups,List.mem_append,not_or] at hm
    rcases List.mem_append.mp ht with h | h
    · exact ihr hm.1 st t h
    · exact ihs hm.2 st t h
  | opt greedy r ih =>
    rcases mem_prefer.mp ht with h | rfl
    · exact ih hm st t h
    · rfl
  | star greedy r ih => exact iterate_caps (ih hm) _ st t ht
  | group n r ih =>
    simp only [groups,List.mem_cons,not_or] at hm
    obtain ⟨u,hu,rfl⟩ := List.mem_map.mp ht
    exact (Function.update_of_ne hm.1 _ _).trans (ih hm.2 st u hu)

theorem run_group (n : ℕ) (r : Regex α) (st t : State α) (ht : t ∈ (group n r).run st) :
    t.caps n ∈ r.lang ∧ st.rest = t.caps n ++ t.rest := by
  obtain ⟨u,hu,rfl⟩ := List.mem_map.mp ht
  obtain ⟨w,hw,hs⟩ := run_sound r st u hu
  have hc : consumed st u = w := consumed_eq hs
  simpa only [Function.update_self,hc] using And.intro hw hs

theorem lang_letters {P : α → Prop} (r : Regex α) (hr : r.letters P) (w : List α) (hw : w ∈ r.lang) :
    ∀ a ∈ w, P a := by
  induction r generalizing w with
  | set p =>
    obtain ⟨a,ha,rfl⟩ := hw
    simpa using hr a ha
  | seq r s ihr ihs =>
    obtain ⟨u,hu,v,hv,rfl⟩ := Language.mem_mul.mp hw
    intro a ha
    rcases List.mem_append.mp ha with h | h
    · exact ihr hr.1 u hu a h
    · exact ihs hr.2 v hv a h
  | alt r s ihr ihs =>
    rcases hw with h | h
    · exact ihr hr.1 w h
    · exact ihs hr.2 w h
  | opt greedy r ih =>
    rcases hw with h | h
    · exact ih hr w h
    · have hnil : w = [] := h
      simp [hnil]
  | star greedy r ih =>
    obtain ⟨ws,rfl,hws⟩ := Language.mem_kstar.mp hw
    intro a ha
    obtain ⟨u,hu,hau⟩ := List.mem_flatten.mp ha
    exact ih hr u (hws u hu) a hau
  | group n r ih => exact ih hr w hw

theorem mem_lang_star_set {p : α → Bool} {greedy : Bool} {w : List α} :
    w ∈ (star greedy (set p)).lang ↔ ∀ a ∈ w, p a = true := by
  constructor
  · exact lang_letters (P := fun a => p a = true) (star greedy (set p)) (fun a ha => ha) w
  · intro h
    refine Language.mem_kstar.mpr ⟨w.map (fun a => [a]),by simp [← List.flatMap_def],?_⟩
    intro y hy
    obtain ⟨a,ha,rfl⟩ := List.mem_map.mp hy
    exact ⟨a,h a ha,rfl⟩

theorem mem_lang_plus_set {p : α → Bool} {w : List α} :
    w ∈ (plus (set p)).lang ↔ w ≠ [] ∧ ∀ a ∈ w, p a = true := by
  constructor
  · intro h
    obtain ⟨u,⟨a,ha,rfl⟩,v,hv,rfl⟩ := Language.mem_mul.mp h
    have hv' := mem_lang_star_set.mp hv
    exact ⟨by simp,by simpa using ⟨ha,hv'⟩⟩
  · rintro ⟨hne,h⟩
    obtain ⟨a,v,rfl⟩ := List.exists_cons_of_ne_nil hne
    simp only [List.mem_cons,forall_eq_or_imp] at h
    exact Language.append_mem_mul (a := [a]) ⟨a,h.1,rfl⟩ (mem_lang_star_set.mpr h.2)

theorem intercalate_mem_lang {q r s : Regex α} {g : Bool} {sep : List α}
    (hsep : sep ∈ s.lang) (x : List α) (xs : List (List α)) (hx : x ∈ q.lang)
    (hxs : ∀ y ∈ xs, y ∈ r.lang) :
    sep.intercalate (x :: xs) ∈ q.lang * (star g (.seq s r)).lang := by
  have hjoin (y : List α) (ys : List (List α)) :
      sep.intercalate (y :: ys) = y ++ (ys.map (sep ++ ·)).flatten := by
    induction ys generalizing y with
    | nil => simp [List.intercalate]
    | cons z ys ih =>
      rw [List.intercalate_cons_cons,ih]
      simp
  rw [hjoin]
  refine Language.append_mem_mul hx (Language.join_mem_kstar ?_)
  intro y hy
  obtain ⟨z,hz,rfl⟩ := List.mem_map.mp hy
  exact Language.append_mem_mul hsep (hxs z hz)

theorem mem_lang_set_star_set {p q : α → Bool} {g : Bool} {w : List α}
    (hpq : ∀ a, p a = true → q a = true) :
    w ∈ (plus (set p)).lang * (star g (set q)).lang ↔
      ∃ a u, w = a :: u ∧ p a = true ∧ ∀ b ∈ w, q b = true := by
  constructor
  · intro h
    obtain ⟨x,hx,y,hy,rfl⟩ := Language.mem_mul.mp h
    obtain ⟨hne,hp⟩ := mem_lang_plus_set.mp hx
    obtain ⟨a,u,rfl⟩ := List.exists_cons_of_ne_nil hne
    refine ⟨a,u ++ y,rfl,hp a (by simp),?_⟩
    intro b hb
    rcases List.mem_append.mp hb with hb | hb
    · exact hpq b (hp b hb)
    · exact mem_lang_star_set.mp hy b hb
  · rintro ⟨a,u,rfl,ha,hq⟩
    have hsingle : [a] ∈ (plus (set p)).lang := mem_lang_plus_set.mpr ⟨by simp,by simpa using ha⟩
    have hu : u ∈ (star g (set q)).lang :=
      mem_lang_star_set.mpr (fun b hb => hq b (by simp [hb]))
    exact Language.append_mem_mul hsingle hu

theorem exists_intercalate {q r s : Regex α} {g : Bool} {sep w : List α}
    (hsep : ∀ z ∈ s.lang, z = sep) (hw : w ∈ q.lang * (star g (.seq s r)).lang) :
    ∃ x xs, w = sep.intercalate (x :: xs) ∧ x ∈ q.lang ∧ ∀ y ∈ xs, y ∈ r.lang := by
  obtain ⟨x,hx,v,hv,rfl⟩ := Language.mem_mul.mp hw
  obtain ⟨ws,rfl,hws⟩ := Language.mem_kstar.mp hv
  suffices h : ∃ xs, x ++ ws.flatten = sep.intercalate (x :: xs) ∧ ∀ y ∈ xs, y ∈ r.lang by
    obtain ⟨xs,hxs,hr⟩ := h
    exact ⟨x,xs,hxs,hx,hr⟩
  clear hw hx hv
  induction ws generalizing x with
  | nil => exact ⟨[],by simp [List.intercalate],by simp⟩
  | cons u ws ih =>
    simp only [List.mem_cons,forall_eq_or_imp] at hws
    obtain ⟨a,ha,z,hz,rfl⟩ := Language.mem_mul.mp hws.1
    obtain ⟨xs,hxs,hr⟩ := ih z hws.2
    refine ⟨z :: xs,?_,by simpa using ⟨hz,hr⟩⟩
    rw [List.intercalate_cons_cons,← hxs,hsep a ha]
    simp

theorem first_seq (r s : Regex α) (st : State α) (k : State α → Option β) :
    (seq r s).first st k = r.first st (fun t => s.first t k) := by
  simp only [first,run]
  induction r.run st with
  | nil => rfl
  | cons t ts ih =>
    rw [List.flatMap_cons,List.findSome?_append,ih,List.findSome?_cons]
    cases List.findSome? k (s.run t) <;> rfl

theorem first_alt (r s : Regex α) (st : State α) (k : State α → Option β) :
    (alt r s).first st k = (r.first st k).or (s.first st k) := by
  simp only [first,run,List.findSome?_append]

theorem first_opt_greedy (r : Regex α) (st : State α) (k : State α → Option β) :
    (opt true r).first st k = (r.first st k).or (k st) := by
  simp [first,run,prefer,List.findSome?_append]

theorem first_opt_lazy (r : Regex α) (st : State α) (k : State α → Option β) :
    (opt false r).first st k = (k st).or (r.first st k) := by
  rw [first,run,prefer,if_neg (by decide),List.findSome?_cons,first]
  cases k st <;> rfl

theorem first_group (n : ℕ) (r : Regex α) (st : State α) (k : State α → Option β) :
    (group n r).first st k =
      r.first st (fun t => k { t with caps := Function.update t.caps n (consumed st t) }) := by
  simp only [first,run,List.findSome?_map,Function.comp_def]

theorem first_eq_none (r : Regex α) (st : State α) (k : State α → Option β)
    (h : ∀ t ∈ r.run st, k t = none) : r.first st k = none :=
  List.findSome?_eq_none_iff.mpr h

theorem first_eq_some (r : Regex α) (st : State α) (k : State α → Option β) (x : β)
    (h : ∀ t ∈ r.run st, k t = none ∨ k t = some x) (hx : ∃ t ∈ r.run st, k t = some x) :
    r.first st k = some x := by
  unfold first
  generalize r.run st = ts at h hx
  induction ts with
  | nil => simp at hx
  | cons t ts ih =>
    rcases h t (by simp) with ht | ht
    · rw [List.findSome?_cons,ht]
      apply ih (fun u hu => h u (by simp [hu]))
      obtain ⟨u,hu,hux⟩ := hx
      rcases List.mem_cons.mp hu with rfl | hu
      · simp [ht] at hux
      · exact ⟨u,hu,hux⟩
    · rw [List.findSome?_cons,ht]

section cut
variable {P : α → Prop} {r : Regex α} {t : State α} {k : State α → Option β} {x y : List α}

theorem first_of_notMem (hr : r.letters P) (hx : ∀ a ∈ x, P a) (hy : ∀ a ∈ y.head?, ¬P a)
    (ht : t.rest = x ++ y) (hno : x ∉ r.lang)
    (hstop : ∀ u ∈ r.run t, ∀ a ∈ u.rest.head?, P a → k u = none) : r.first t k = none := by
  apply first_eq_none
  intro u hu
  obtain ⟨w,hw,htw⟩ := r.run_sound t u hu
  by_contra hk
  have hhead : ∀ a ∈ u.rest.head?, ¬P a := fun a ha hPa => hk (hstop u hu a ha hPa)
  have hcut := cut_unique (lang_letters r hr w hw) hx hhead hy (htw.symm.trans ht)
  exact hno (hcut.1 ▸ hw)

theorem first_of_mem {b : β} (hr : r.letters P) (hy : ∀ a ∈ y.head?, ¬P a)
    (ht : t.rest = x ++ y) (hx : x ∈ r.lang)
    (hstop : ∀ u ∈ r.run t, ∀ a ∈ u.rest.head?, P a → k u = none)
    (hend : ∀ u ∈ r.run t, u.rest = y → k u = some b) : r.first t k = some b := by
  apply first_eq_some
  · intro u hu
    obtain ⟨w,hw,htw⟩ := r.run_sound t u hu
    by_cases hhead : ∀ a ∈ u.rest.head?, ¬P a
    · have hcut := cut_unique (lang_letters r hr w hw) (lang_letters r hr x hx) hhead hy
        (htw.symm.trans ht)
      exact Or.inr (hend u hu hcut.2)
    · push Not at hhead
      obtain ⟨a,ha,hPa⟩ := hhead
      exact Or.inl (hstop u hu a ha hPa)
  · obtain ⟨u,hu,hrest⟩ := r.run_complete t x y hx ht
    exact ⟨u,hu,hend u hu hrest⟩

end cut

theorem mem_lang_of_fullMatch {s : List α} {t : State α} (r : Regex α)
    (h : r.fullMatch s = some t) : s ∈ r.lang := by
  have hrest := List.find?_some h
  obtain ⟨w,hw,hs⟩ := r.run_sound _ t (List.mem_of_find?_eq_some h)
  have hws : s = w := by simpa [State.start,List.isEmpty_iff.mp hrest] using hs
  exact hws ▸ hw

theorem fullMatch_map (r : Regex α) (s : List α) (f : State α → β) :
    (r.fullMatch s).map f =
      r.first (State.start s) (fun t => if t.rest.isEmpty then some (f t) else none) := by
  unfold fullMatch first
  generalize r.run (State.start s) = ts
  induction ts with
  | nil => rfl
  | cons t ts ih =>
    rw [List.find?_cons,List.findSome?_cons]
    cases h : t.rest.isEmpty <;> simp [ih]

end Regex
end Backtrack
