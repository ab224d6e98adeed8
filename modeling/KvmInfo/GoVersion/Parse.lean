import KvmInfo.GoVersion.Order

namespace GoVersion
open Go Backtrack

def subexps (t : State UInt8) : Str × Str × Str × Str :=
  (t.caps 1,t.caps 4,t.caps 7,t.caps 10)

theorem index_submatches (v : Str) (t : State UInt8) (n : ℕ) (hn : n < numSubexp) :
    index (v :: (List.range numSubexp).map (fun m => t.caps (m + 1))) ((n + 1 : ℕ) : ℤ) =
      .ok (t.caps (n + 1)) := by
  rw [index_ok _ (n + 1) (by simpa using hn)]
  simp

def parsed (v : Str) (m : Str × Str × Str × Str) : Except Str Version :=
  match parseSegments (split m.1 dot) with
  | .error err => .error (str "Error parsing version: " ++ err)
  | .ok segments =>
      .ok
        { metadata := m.2.2.2
          pre := if m.2.2.1 = [] then m.2.1 else m.2.2.1
          segments := segments ++ List.replicate (3 - segments.length) 0
          si := segments.length
          original := v }

theorem newVersion_eq (v : Str) (pattern : Regex UInt8) :
    newVersion v pattern = .ok
      (match (pattern.fullMatch v).map subexps with
        | none => .error (str "Malformed version: " ++ v)
        | some m => parsed v m) := by
  unfold newVersion findStringSubmatch
  cases pattern.fullMatch v with
  | none => rfl
  | some t =>
    have h1 := index_submatches v t 0 (by decide)
    have h4 := index_submatches v t 3 (by decide)
    have h7 := index_submatches v t 6 (by decide)
    have h10 := index_submatches v t 9 (by decide)
    simp only [Nat.reduceAdd,Nat.cast_ofNat,Nat.cast_one] at h1 h4 h7 h10
    simp only [Option.map_some,h1,bind,Except.bind,parsed,subexps]
    cases parseSegments (split (t.caps 1) dot) with
    | error err => rfl
    | ok segments =>
      simp only [h7]
      by_cases hp : t.caps 7 = []
      · simp [hp,h4,h10,pure,Except.pure]
      · simp [hp,h10,pure,Except.pure]

theorem newVersion_ok (v : Str) : ∃ r, NewVersion v = .ok r := ⟨_,newVersion_eq v versionRegexp⟩

theorem parseSegments_nonneg (parts : List Str) (segs : List ℤ)
    (hparts : ∀ x ∈ parts, ∀ b ∈ x, isDecimal b = true) (h : parseSegments parts = .ok segs) :
    (∀ s ∈ segs, 0 ≤ s) ∧ segs.length = parts.length := by
  induction parts generalizing segs with
  | nil =>
    cases h
    simp
  | cons x parts ih =>
    simp only [List.mem_cons,forall_eq_or_imp] at hparts
    rw [parseSegments] at h
    cases hx : parseInt x with
    | mk val err =>
      rw [hx] at h
      cases err with
      | some err => simp at h
      | none =>
        cases hr : parseSegments parts with
        | error err => simp [hr,Except.map] at h
        | ok rest =>
          have hs : val :: rest = segs := by simpa [hr,Except.map] using h
          obtain ⟨hnn,hlen⟩ := ih rest hparts.2 hr
          have hval : 0 ≤ val := by
            have := parseInt_nonneg x hparts.1
            rwa [hx] at this
          subst hs
          exact ⟨by simpa using ⟨hval,hnn⟩,by simp [hlen]⟩

theorem split_decimal (s : Str) (hs : ∀ b ∈ s, isDecimal b = true ∨ b = dot) :
    ∀ x ∈ split s dot, ∀ b ∈ x, isDecimal b = true := by
  intro x hx b hb
  obtain ⟨hbs,hne⟩ := split_mem s dot x hx b hb
  exact (hs b hbs).resolve_right hne

section sound
variable {s : Str} {t : State UInt8}

theorem base_letters : baseRegexp.letters (fun b => isDecimal b = true ∨ b = dot) := by
  have hd : digits.letters (fun b => isDecimal b = true ∨ b = dot) :=
    ⟨fun b hb => Or.inl hb,fun b hb => Or.inl hb⟩
  exact ⟨hd,fun b hb => Or.inr (by simpa using hb),hd⟩

theorem metadata_head {w : Str} (hw : w ∈ metadataRegexp.lang) : plusSign ∈ w := by
  obtain ⟨x,⟨b,hb,rfl⟩,y,hy,rfl⟩ := Language.mem_mul.mp hw
  have : b = plusSign := by simpa using hb
  simp [this]

theorem subset_of_run {r : Regex UInt8} {st t : State UInt8} (h : t ∈ r.run st) :
    ∀ b ∈ t.rest, b ∈ st.rest := by
  obtain ⟨w,-,hw⟩ := r.run_sound st t h
  intro b hb
  simp [hw,hb]

theorem fullMatch_sound (h : versionRegexp.fullMatch s = some t) (hplus : plusSign ∉ s) :
    t.caps 10 = [] ∧ ∀ b ∈ t.caps 1, isDecimal b = true ∨ b = dot := by
  have ht := List.mem_of_find?_eq_some h
  obtain ⟨u,hu,ht⟩ := List.mem_flatMap.mp ht
  obtain ⟨v,hv,ht⟩ := List.mem_flatMap.mp ht
  obtain ⟨w,hw,ht⟩ := List.mem_flatMap.mp ht
  have hwp : plusSign ∉ w.rest := fun hm =>
    hplus (subset_of_run hu _ (subset_of_run hv _ (subset_of_run hw _ hm)))
  have htw : t = w := by
    rcases mem_prefer.mp ht with hm | hm
    · obtain ⟨x,hx,hr⟩ := metadataRegexp.run_sound w t hm
      exact absurd (by rw [hr]; simp [metadata_head hx]) hwp
    · exact hm
  subst htw
  have h10 : t.caps 10 = [] :=
    (Regex.run_caps _ 10 (by decide) v t hw).trans
      ((Regex.run_caps _ 10 (by decide) u v hv).trans (Regex.run_caps _ 10 (by decide) _ u hu))
  have h1 : t.caps 1 = v.caps 1 := Regex.run_caps _ 1 (by decide) v t hw
  have hbase := (Regex.run_group 1 _ u v hv).1
  exact ⟨h10,by rw [h1]; exact Regex.lang_letters _ base_letters _ hbase⟩

theorem newVersion_plain {v : Version} (h : NewVersion s = .ok (.ok v)) (hplus : plusSign ∉ s) :
    v.Plain := by
  rw [NewVersion,newVersion_eq] at h
  cases hm : versionRegexp.fullMatch s with
  | none => simp [hm] at h
  | some t =>
    obtain ⟨h10,h1⟩ := fullMatch_sound hm hplus
    simp only [hm,Option.map_some,parsed,subexps] at h
    cases hp : parseSegments (split (t.caps 1) dot) with
    | error err => simp [hp] at h
    | ok segs =>
      obtain ⟨hnn,hlen⟩ := parseSegments_nonneg _ _ (split_decimal _ h1) hp
      simp only [hp,Except.ok.injEq] at h
      subst h
      refine ⟨h10,?_,?_⟩
      · intro x hx
        rcases List.mem_append.mp hx with hx | hx
        · exact hnn x hx
        · exact (List.eq_of_mem_replicate hx).ge
      · intro hnil
        have hz := (List.append_eq_nil_iff.mp hnil).1
        rw [hz] at hlen
        have := List.splitOn_ne_nil dot (t.caps 1)
        exact this (List.length_eq_zero_iff.mp hlen.symm)

end sound

def IsNumeral (x : Str) : Prop := x ≠ [] ∧ ∀ b ∈ x, isDecimal b = true

instance (x : Str) : Decidable (IsNumeral x) :=
  decidable_of_iff (x ≠ [] ∧ x.all isDecimal = true) (by rw [IsNumeral,List.all_eq_true])

def releaseTail (rs : List Str) : Str := if rs = [] then [] else dash :: join rs dot

section kernel
variable {bs rs : List Str}

theorem isNumeral_mem_digits {x : Str} (h : IsNumeral x) : x ∈ digits.lang :=
  Regex.mem_lang_plus_set.mpr h

theorem isNumeral_mem_words {x : Str} (h : IsNumeral x) : x ∈ words.lang :=
  Regex.mem_lang_plus_set.mpr ⟨h.1,fun b hb => by simp [isWord,h.2 b hb]⟩

theorem dot_mem : [dot] ∈ (chr dot).lang := ⟨dot,by simp,rfl⟩
theorem dash_mem : [dash] ∈ (chr dash).lang := ⟨dash,by simp,rfl⟩

theorem join_mem_base (hne : bs ≠ []) (hb : ∀ x ∈ bs, IsNumeral x) :
    join bs dot ∈ baseRegexp.lang := by
  obtain ⟨x,xs,rfl⟩ := List.exists_cons_of_ne_nil hne
  exact Regex.intercalate_mem_lang (g := false) dot_mem x xs
    (isNumeral_mem_digits (hb x (by simp)))
    (fun y hy => isNumeral_mem_digits (hb y (by simp [hy])))

theorem tail_mem_release (hne : rs ≠ []) (hr : ∀ x ∈ rs, IsNumeral x) :
    dash :: join rs dot ∈ numericRelease.lang := by
  obtain ⟨x,xs,rfl⟩ := List.exists_cons_of_ne_nil hne
  have h : join (x :: xs) dot ∈ digits.lang * (dotted 5 words true).lang :=
    Regex.intercalate_mem_lang (g := true) dot_mem x xs
      (isNumeral_mem_digits (hr x (by simp)))
      (fun y hy => isNumeral_mem_words (hr y (by simp [hy])))
  obtain ⟨u,hu,v,hv,huv⟩ := Language.mem_mul.mp h
  refine Language.append_mem_mul (a := [dash]) dash_mem ?_
  change join (x :: xs) dot ∈ _
  rw [← huv]
  have hnil : [] ∈ (Regex.star true (.set isWord)).lang := Language.nil_mem_kstar _
  exact Language.append_mem_mul hu (Language.append_mem_mul (a := []) hnil hv)

theorem release_head {w : Str}
    (hw : w ∈ (Regex.group 3 (.alt numericRelease alphaRelease)).lang) :
    ∃ b u, w = b :: u ∧ isAlpha b = true := by
  have hdash : isAlpha dash = true := by decide
  rcases hw with h | h
  · obtain ⟨x,⟨b,hb,rfl⟩,y,-,rfl⟩ := Language.mem_mul.mp h
    have : b = dash := by simpa using hb
    exact ⟨b,y,rfl,this ▸ hdash⟩
  · obtain ⟨x,hx,y,hy,rfl⟩ := Language.mem_mul.mp h
    rcases hx with ⟨b,hb,rfl⟩ | hx
    · have : b = dash := by simpa using hb
      exact ⟨b,y,rfl,this ▸ hdash⟩
    · have hnil : x = [] := hx
      obtain ⟨z,hz,u,-,rfl⟩ := Language.mem_mul.mp hy
      obtain ⟨hne,hall⟩ := Regex.mem_lang_plus_set.mp hz
      obtain ⟨b,z,rfl⟩ := List.exists_cons_of_ne_nil hne
      exact ⟨b,z ++ u,by simp [hnil],hall b (by simp)⟩

def accept (t : State UInt8) : Option (Str × Str × Str × Str) :=
  if t.rest.isEmpty then some (subexps t) else none

def afterRelease (t : State UInt8) : Option (Str × Str × Str × Str) :=
  (Regex.opt false metadataRegexp).first t accept

def afterBase (t : State UInt8) : Option (Str × Str × Str × Str) :=
  (Regex.opt true (.group 3 (.alt numericRelease alphaRelease))).first t afterRelease

theorem afterRelease_eq {t : State UInt8} (h : plusSign ∉ t.rest) :
    afterRelease t = accept t := by
  have hnone : metadataRegexp.first t accept = none := by
    apply Regex.first_eq_none
    intro u hu
    obtain ⟨w,hw,hr⟩ := metadataRegexp.run_sound t u hu
    exact absurd (by rw [hr]; simp [metadata_head hw]) h
  rw [afterRelease,Regex.first_opt_lazy,hnone,Option.or_none]

theorem afterBase_eq {t : State UInt8} (h : plusSign ∉ t.rest)
    (hhead : ∀ b ∈ t.rest.head?, isAlpha b = false) : afterBase t = accept t := by
  have hnone : (Regex.group 3 (.alt numericRelease alphaRelease)).first t afterRelease = none := by
    apply Regex.first_eq_none
    intro u hu
    obtain ⟨w,hw,hr⟩ := Regex.run_sound _ t u hu
    obtain ⟨b,v,rfl,hb⟩ := release_head hw
    have := hhead b (by simp [hr])
    simp [hb] at this
  rw [afterBase,Regex.first_opt_greedy,hnone,Option.none_or,afterRelease_eq h]

theorem numericRelease_subexps {t u : State UInt8} {r c : Str} (ht : t.rest = dash :: r)
    (hu : u ∈ numericRelease.run t) (hend : u.rest = []) :
    subexps { u with caps := Function.update u.caps 3 c } =
      (t.caps 1,r,t.caps 7,t.caps 10) := by
  obtain ⟨v,hv,huv⟩ := List.mem_flatMap.mp hu
  have hvr : v.rest = r := by
    obtain ⟨w,⟨b,-,rfl⟩,hw⟩ := Regex.run_sound _ t v hv
    rw [ht] at hw
    exact (List.cons.inj hw).2.symm
  have h4 := (Regex.run_group 4 _ v u huv).2
  rw [hvr,hend,List.append_nil] at h4
  have hcaps (n : ℕ) (hn : n ∉ numericRelease.groups) : u.caps n = t.caps n :=
    Regex.run_caps _ n hn t u hu
  simp [subexps,Function.update_of_ne,← h4,hcaps 1 (by decide),hcaps 7 (by decide),
    hcaps 10 (by decide)]

theorem afterBase_release {t : State UInt8} (hne : rs ≠ []) (hr : ∀ x ∈ rs, IsNumeral x)
    (ht : t.rest = dash :: join rs dot) (hplus : plusSign ∉ t.rest) :
    afterBase t = some (t.caps 1,join rs dot,t.caps 7,t.caps 10) := by
  have hstep : numericRelease.first t
      (fun u => afterRelease { u with caps := Function.update u.caps 3 (consumed t u) }) =
        some (t.caps 1,join rs dot,t.caps 7,t.caps 10) := by
    apply Regex.first_eq_some
    · intro u hu
      have hup : plusSign ∉ u.rest := fun hm => hplus (subset_of_run hu _ hm)
      rw [afterRelease_eq (by simpa using hup),accept]
      split_ifs with hend
      · exact Or.inr (congrArg some (numericRelease_subexps ht hu (List.isEmpty_iff.mp hend)))
      · exact Or.inl rfl
    · obtain ⟨u,hu,hend⟩ := Regex.run_complete numericRelease t (dash :: join rs dot) []
        (tail_mem_release hne hr) (by simpa using ht)
      refine ⟨u,hu,?_⟩
      rw [afterRelease_eq (by simp [hend]),accept,if_pos (by simp [hend])]
      exact congrArg some (numericRelease_subexps ht hu hend)
  rw [afterBase,Regex.first_opt_greedy,Regex.first_group,Regex.first_alt,hstep]
  rfl

theorem base_plain (hb : ∀ x ∈ bs, IsNumeral x) :
    ∀ b ∈ join bs dot, isDecimal b = true ∨ b = dot :=
  join_decimal bs (fun x hx => (hb x hx).2)

theorem tail_plain (hr : ∀ x ∈ rs, IsNumeral x) :
    ∀ b ∈ releaseTail rs, isDecimal b = true ∨ b = dot ∨ b = dash := by
  unfold releaseTail
  split_ifs with h
  · simp
  · intro b hb
    rcases List.mem_cons.mp hb with rfl | hb
    · exact Or.inr (Or.inr rfl)
    · exact (base_plain hr b hb).imp_right Or.inl

theorem ne_of_plain {b c : UInt8} (h : isDecimal b = true ∨ b = dot ∨ b = dash)
    (hc : isDecimal c = false) (hdot : c ≠ dot) (hdash : c ≠ dash) : b ≠ c := by
  rintro rfl
  rcases h with h | h | h
  · simp [h] at hc
  · exact hdot h
  · exact hdash h

theorem kernel_plain (hb : ∀ x ∈ bs, IsNumeral x) (hr : ∀ x ∈ rs, IsNumeral x) :
    ∀ b ∈ join bs dot ++ releaseTail rs, isDecimal b = true ∨ b = dot ∨ b = dash := by
  intro b h
  rcases List.mem_append.mp h with h | h
  · exact (base_plain hb b h).imp_right Or.inl
  · exact tail_plain hr b h

theorem rest_plus {t : State UInt8} (hb : ∀ x ∈ bs, IsNumeral x) (hr : ∀ x ∈ rs, IsNumeral x)
    (ht : t ∈ baseRegexp.run (State.start (join bs dot ++ releaseTail rs))) : plusSign ∉ t.rest := by
  intro h
  exact ne_of_plain (kernel_plain hb hr _ (subset_of_run ht _ h)) (by decide) (by decide) (by decide)
    rfl

theorem isAlpha_plain {c : UInt8} (h : isDecimal c = true ∨ c = dot ∨ c = dash) (hc : c ≠ dash) :
    isAlpha c = false := by
  rcases h with hd | rfl | hd
  · have := isDecimal_iff.mp hd
    have h1 : ¬65 ≤ c.toNat := by omega
    have h2 : ¬97 ≤ c.toNat := by omega
    have h3 : c ≠ 0x7E := by rintro rfl; simp at this
    simp [isAlpha,isLetter,UInt8.le_iff_toNat_le,h1,h2,h3,hc]
  · decide
  · exact absurd hd hc

theorem afterBase_kernel {t : State UInt8} (hb : ∀ x ∈ bs, IsNumeral x)
    (hr : ∀ x ∈ rs, IsNumeral x) (ht : t ∈ baseRegexp.run (State.start (join bs dot ++ releaseTail rs))) :
    afterBase t = none ∨ afterBase t = some (join bs dot,join rs dot,[],[]) := by
  have hplus := rest_plus hb hr ht
  obtain ⟨h1,hs⟩ := Regex.run_group 1 _ _ t ht
  have hcaps (n : ℕ) (hn : n ∉ baseRegexp.groups) : t.caps n = [] :=
    Regex.run_caps _ n hn _ t ht
  have hbase := Regex.lang_letters _ base_letters _ h1
  have hnodash (xs : Str) (h : ∀ b ∈ xs, isDecimal b = true ∨ b = dot) : ∀ b ∈ xs, b ≠ dash := by
    rintro b hb rfl
    exact absurd (h dash hb) (by decide)
  by_cases hcut : t.rest = [] ∨ t.rest.head? = some dash
  · have htail : releaseTail rs = [] ∨ (releaseTail rs).head? = some dash := by
      unfold releaseTail
      split_ifs <;> simp
    obtain ⟨hcap,hrest⟩ := append_tail_inj (hnodash _ hbase) (hnodash _ (base_plain hb)) hcut htail
      hs.symm
    right
    by_cases hne : rs = []
    · have hend : t.rest = [] := by simpa [releaseTail,hne] using hrest
      rw [afterBase_eq hplus (by simp [hend]),accept,if_pos (by simp [hend])]
      simp [subexps,hcap,hne,join,hcaps 4 (by decide),hcaps 7 (by decide),hcaps 10 (by decide)]
    · have hrelease : t.rest = dash :: join rs dot := by simpa [releaseTail,hne] using hrest
      rw [afterBase_release hne hr hrelease hplus,hcap,hcaps 7 (by decide),hcaps 10 (by decide)]
  · left
    rw [not_or] at hcut
    obtain ⟨c,u,hcu⟩ := List.exists_cons_of_ne_nil hcut.1
    have hc := kernel_plain hb hr c (subset_of_run ht c (by simp [hcu]))
    have halpha := isAlpha_plain hc (by simpa [hcu] using hcut.2)
    rw [afterBase_eq hplus (by simp [hcu,halpha]),accept,if_neg (by simp [hcu])]

theorem fullMatch_kernel (hne : bs ≠ []) (hb : ∀ x ∈ bs, IsNumeral x)
    (hr : ∀ x ∈ rs, IsNumeral x) :
    (versionRegexp.fullMatch (join bs dot ++ releaseTail rs)).map subexps =
      some (join bs dot,join rs dot,[],[]) := by
  have hplain := kernel_plain hb hr
  have hv : (chr 0x76).first (State.start (join bs dot ++ releaseTail rs))
      (fun t => baseRegexp.first t afterBase) = none := by
    apply Regex.first_eq_none
    intro t ht
    obtain ⟨w,⟨b,hbv,rfl⟩,hw⟩ := Regex.run_sound _ _ t ht
    have hmem : b ∈ join bs dot ++ releaseTail rs := by
      change join bs dot ++ releaseTail rs = _ at hw
      simp [hw]
    have hbv' : b = 0x76 := by simpa using hbv
    exact absurd hbv' (ne_of_plain (hplain b hmem) (by decide) (by decide) (by decide))
  have hbase : baseRegexp.first (State.start (join bs dot ++ releaseTail rs)) afterBase =
      some (join bs dot,join rs dot,[],[]) := by
    apply Regex.first_eq_some
    · intro t ht
      exact afterBase_kernel hb hr ht
    · obtain ⟨t,ht,hend⟩ := Regex.run_complete baseRegexp
        (State.start (join bs dot ++ releaseTail rs)) (join bs dot) (releaseTail rs)
        (join_mem_base hne hb) rfl
      refine ⟨t,ht,(afterBase_kernel hb hr ht).resolve_left ?_⟩
      have hplus := rest_plus hb hr ht
      by_cases hrs : rs = []
      · have hnil : t.rest = [] := by simpa [releaseTail,hrs] using hend
        rw [afterBase_eq hplus (by simp [hnil]),accept,if_pos (by simp [hnil])]
        simp
      · rw [afterBase_release hrs hr (by simpa [releaseTail,hrs] using hend) hplus]
        simp
  rw [Regex.fullMatch_map]
  change versionRegexp.first _ accept = _
  rw [versionRegexp,Regex.first_seq,Regex.first_opt_greedy]
  simp only [Regex.first_seq]
  change ((chr 0x76).first _ (fun t => baseRegexp.first t afterBase)).or
    (baseRegexp.first _ afterBase) = _
  rw [hv,hbase,Option.none_or]

theorem parseSegments_numerals (xs : List Str) (hx : ∀ x ∈ xs, IsNumeral x)
    (hfit : ∀ x ∈ xs, (decimal x : ℤ) ≤ maxInt64) :
    parseSegments xs = .ok (xs.map (fun x => (decimal x : ℤ))) := by
  induction xs with
  | nil => rfl
  | cons x xs ih =>
    simp only [List.mem_cons,forall_eq_or_imp] at hx hfit
    rw [parseSegments,parseInt_decimal x hx.1.1 hx.1.2 hfit.1,ih hx.2 hfit.2]
    rfl

theorem numeral_dot {x : Str} (hx : IsNumeral x) : dot ∉ x := by
  intro h
  exact absurd (hx.2 dot h) (by decide)

theorem newVersion_kernel (hne : bs ≠ []) (hb : ∀ x ∈ bs, IsNumeral x)
    (hfit : ∀ x ∈ bs, (decimal x : ℤ) ≤ maxInt64) (hr : ∀ x ∈ rs, IsNumeral x) :
    NewVersion (join bs dot ++ releaseTail rs) = .ok (.ok
      { metadata := []
        pre := join rs dot
        segments := bs.map (fun x => (decimal x : ℤ)) ++ List.replicate (3 - bs.length) 0
        si := bs.length
        original := join bs dot ++ releaseTail rs }) := by
  rw [NewVersion,newVersion_eq,fullMatch_kernel hne hb hr]
  have hsplit : split (join bs dot) dot = bs :=
    List.splitOn_intercalate dot (fun x hx => numeral_dot (hb x hx)) hne
  simp [parsed,hsplit,parseSegments_numerals bs hb hfit]

end kernel
end GoVersion
