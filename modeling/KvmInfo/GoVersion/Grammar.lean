import KvmInfo.GoVersion.Parse

namespace GoVersion
open Go Backtrack

def IsIdentifier (x : Str) : Prop := x ≠ [] ∧ ∀ b ∈ x, isWord b = true

instance (x : Str) : Decidable (IsIdentifier x) := inferInstanceAs (Decidable (_ ∧ _))

def Identifiers (p : Str) : Prop := ∀ x ∈ split p dot, IsIdentifier x

instance (p : Str) : Decidable (Identifiers p) :=
  inferInstanceAs (Decidable (∀ x ∈ split p dot, IsIdentifier x))

inductive Release : Str → Str → Prop
  | absent : Release [] []
  | dashed (p : Str) (identifiers : Identifiers p) : Release (dash :: p) p
  | bare (p : Str) (identifiers : Identifiers p) (head : ∀ b ∈ p.head?, isAlpha b = true)
      (undashed : ∀ q, p = dash :: q → ¬Identifiers q) : Release p p

def IsMetadata (m : Str) : Prop := m = [] ∨ Identifiers m

structure Spelled (bs : List Str) (x p m : Str) : Prop where
  nonempty : bs ≠ []
  numerals : ∀ b ∈ bs, IsNumeral b
  release : Release x p
  metadata : IsMetadata m

def plusText (m : Str) : Str := if m ≠ [] then plusSign :: m else []

def written (v : Bool) (bs : List Str) (x m : Str) : Str :=
  (if v then [0x76] else []) ++ (join bs dot ++ (x ++ plusText m))

def numericText : Regex UInt8 :=
  .seq digits (.seq (.star true (.set isWord)) (dotted 5 words true))

def alphaText : Regex UInt8 :=
  .seq (.plus (.set isAlpha)) (.seq (.star true (.set isWord)) (dotted 8 words true))

def metaText : Regex UInt8 := .seq words (dotted 11 words true)

theorem mem_words {x : Str} : x ∈ words.lang ↔ IsIdentifier x := Regex.mem_lang_plus_set

theorem isWord_dot : isWord dot = false := by decide

theorem identifier_dot {x : Str} (h : IsIdentifier x) : dot ∉ x := by
  intro hd
  have := h.2 dot hd
  simp [isWord_dot] at this

theorem identifiers_join {x : Str} {xs : List Str} (h : ∀ y ∈ x :: xs, IsIdentifier y) :
    Identifiers (join (x :: xs) dot) := by
  have hsplit : split (join (x :: xs) dot) dot = x :: xs :=
    List.splitOn_intercalate dot (fun y hy => identifier_dot (h y hy)) (by simp)
  rw [Identifiers,hsplit]
  exact h

theorem exists_join (p : Str) : ∃ x xs, split p dot = x :: xs ∧ p = join (x :: xs) dot := by
  obtain ⟨x,xs,h⟩ := List.exists_cons_of_ne_nil (List.splitOn_ne_nil dot p)
  exact ⟨x,xs,h,by rw [← h]; exact (List.intercalate_splitOn dot).symm⟩

theorem head?_join {x : Str} (xs : List Str) (hx : x ≠ []) : (join (x :: xs) dot).head? = x.head? := by
  obtain ⟨b,u,rfl⟩ := List.exists_cons_of_ne_nil hx
  cases xs <;> simp [join,List.intercalate_cons_cons]

theorem identifiers_ne_nil {p : Str} (h : Identifiers p) : p ≠ [] := by
  rintro rfl
  exact (h [] (by simp [split])).1 rfl

theorem identifiers_head {p : Str} (h : Identifiers p) : ∀ b ∈ p.head?, isWord b = true := by
  obtain ⟨x,xs,hs,rfl⟩ := exists_join p
  rw [Identifiers,hs] at h
  obtain ⟨hne,hall⟩ := h x (by simp)
  rw [head?_join xs hne]
  exact fun b hb => hall b (List.mem_of_head? hb)

theorem mem_dotted {q : Regex UInt8} {F : UInt8 → Prop} {n : ℕ} {p : Str}
    (hq : ∀ w, w ∈ q.lang ↔ IsIdentifier w ∧ ∀ b ∈ w.head?, F b) :
    p ∈ q.lang * (dotted n words true).lang ↔ Identifiers p ∧ ∀ b ∈ p.head?, F b := by
  constructor
  · intro h
    have hsep : ∀ z ∈ (chr dot).lang, z = [dot] := by
      rintro z ⟨b,hb,rfl⟩
      simpa using hb
    obtain ⟨x,xs,rfl,hx,hxs⟩ := Regex.exists_intercalate (g := true) hsep h
    obtain ⟨hident,hhead⟩ := (hq x).mp hx
    change Identifiers (join (x :: xs) dot) ∧ ∀ b ∈ (join (x :: xs) dot).head?, F b
    rw [head?_join xs hident.1]
    exact ⟨identifiers_join (by simpa [hident] using fun y hy => mem_words.mp (hxs y hy)),hhead⟩
  · rintro ⟨hp,hhead⟩
    obtain ⟨x,xs,hs,rfl⟩ := exists_join p
    rw [Identifiers,hs] at hp
    rw [head?_join xs (hp x (by simp)).1] at hhead
    exact Regex.intercalate_mem_lang (g := true) dot_mem x xs ((hq x).mpr ⟨hp x (by simp),hhead⟩)
      (fun y hy => mem_words.mpr (hp y (by simp [hy])))

theorem mem_led {f : UInt8 → Bool} {w : Str} (hf : ∀ b, f b = true → isWord b = true) :
    w ∈ (Regex.seq (.plus (.set f)) (.star true (.set isWord))).lang ↔
      IsIdentifier w ∧ ∀ b ∈ w.head?, f b = true := by
  constructor
  · intro h
    obtain ⟨b,u,rfl,hb,hall⟩ := (Regex.mem_lang_set_star_set (g := true) hf).mp h
    exact ⟨⟨by simp,hall⟩,by simpa using hb⟩
  · rintro ⟨⟨hne,hall⟩,hhead⟩
    obtain ⟨b,u,rfl⟩ := List.exists_cons_of_ne_nil hne
    exact (Regex.mem_lang_set_star_set (g := true) hf).mpr ⟨b,u,rfl,hhead b (by simp),hall⟩

theorem mem_metaText {m : Str} : m ∈ metaText.lang ↔ Identifiers m := by
  have h := mem_dotted (q := words) (F := fun _ => True) (n := 11) (p := m) (by simp [mem_words])
  exact h.trans (by simp)

theorem mem_numericText {p : Str} :
    p ∈ numericText.lang ↔ Identifiers p ∧ ∀ b ∈ p.head?, isDecimal b = true := by
  have hled (w : Str) := mem_led (f := isDecimal) (w := w) (fun b hb => by simp [isWord,hb])
  rw [← mem_dotted (n := 5) hled]
  change p ∈ digits.lang * (_ * _) ↔ p ∈ digits.lang * _ * _
  rw [mul_assoc]

theorem mem_alphaText {p : Str} :
    p ∈ alphaText.lang ↔ Identifiers p ∧ ∀ b ∈ p.head?, isAlpha b = true := by
  have hled (w : Str) := mem_led (f := isAlpha) (w := w) (fun b hb => by simp [isWord,hb])
  rw [← mem_dotted (n := 8) hled]
  change p ∈ (Regex.plus (.set isAlpha)).lang * (_ * _) ↔ p ∈ (Regex.plus (.set isAlpha)).lang * _ * _
  rw [mul_assoc]

theorem text_letters : metaText.letters (· ≠ plusSign) ∧ numericText.letters (· ≠ plusSign) ∧
    alphaText.letters (· ≠ plusSign) := by
  have hword (b : UInt8) (h : isWord b = true) : b ≠ plusSign := by
    rintro rfl
    exact absurd h (by decide)
  have hdot (b : UInt8) (h : (b == dot) = true) : b ≠ plusSign := by
    rintro rfl
    exact absurd h (by decide)
  have hdigit (b : UInt8) (h : isDecimal b = true) : b ≠ plusSign := hword b (by simp [isWord,h])
  have halpha (b : UInt8) (h : isAlpha b = true) : b ≠ plusSign := hword b (by simp [isWord,h])
  have htail : (Regex.seq (chr dot) words).letters (· ≠ plusSign) := ⟨hdot,hword,hword⟩
  exact ⟨⟨⟨hword,hword⟩,htail⟩,⟨⟨hdigit,hdigit⟩,hword,htail⟩,⟨⟨halpha,halpha⟩,hword,htail⟩⟩

theorem identifiers_plus {p : Str} (h : Identifiers p) : ∀ b ∈ p, b ≠ plusSign :=
  Regex.lang_letters _ text_letters.1 p (mem_metaText.mpr h)

def fields (t : State UInt8) : Str × Str × Str :=
  (t.caps 1,if t.caps 7 = [] then t.caps 4 else t.caps 7,t.caps 10)

def finish (t : State UInt8) : Option (Str × Str × Str) :=
  if t.rest.isEmpty then some (fields t) else none

def finishMetadata (t : State UInt8) : Option (Str × Str × Str) :=
  (Regex.opt false metadataRegexp).first t finish

def finishRelease (t : State UInt8) : Option (Str × Str × Str) :=
  (Regex.opt true (.group 3 (.alt numericRelease alphaRelease))).first t finishMetadata

theorem chr_group_caps {c : UInt8} {n : ℕ} {q : Regex UInt8} {t u : State UInt8} {r : Str}
    (ht : t.rest = c :: r) (hu : u ∈ (Regex.seq (chr c) (.group n q)).run t) :
    u.caps n ∈ q.lang ∧ r = u.caps n ++ u.rest := by
  obtain ⟨v,hv,huv⟩ := List.mem_flatMap.mp hu
  obtain ⟨w,⟨b,-,rfl⟩,hw⟩ := Regex.run_sound _ t v hv
  rw [ht] at hw
  have hvr : r = v.rest := (List.cons.inj hw).2
  rw [hvr]
  exact Regex.run_group n q v u huv

section finish
variable {t : State UInt8} {x p m : Str}

theorem finish_stops : ∀ a ∈ t.rest.head?, finish t = none := by
  intro a ha
  obtain ⟨u,hu⟩ := List.head?_eq_some_iff.mp ha
  simp [finish,hu]

theorem finishMetadata_stops : ∀ a ∈ t.rest.head?, a ≠ plusSign → finishMetadata t = none := by
  intro a ha hne
  have hnone : metadataRegexp.first t finish = none := by
    apply Regex.first_eq_none
    intro u hu
    obtain ⟨w,hw,hr⟩ := metadataRegexp.run_sound t u hu
    obtain ⟨y,⟨b,hb,rfl⟩,z,-,rfl⟩ := Language.mem_mul.mp hw
    have hba : b = a := by simpa [hr] using ha
    exact absurd (hba.symm.trans (by simpa using hb)) hne
  rw [finishMetadata,Regex.first_opt_lazy,finish_stops a ha,hnone]
  rfl

theorem finishMetadata_ends (hm : IsMetadata m) (h10 : t.caps 10 = []) (ht : t.rest = plusText m) :
    finishMetadata t = some ((fields t).1,(fields t).2.1,m) := by
  rw [finishMetadata,Regex.first_opt_lazy]
  by_cases hnil : m = []
  · have hend : t.rest = [] := by simpa [plusText,hnil] using ht
    simp [finish,hend,fields,h10,hnil]
  · have hplus : t.rest = plusSign :: m := by simpa [plusText,hnil] using ht
    have hmem : plusSign :: m ∈ metadataRegexp.lang :=
      Language.append_mem_mul (a := [plusSign]) ⟨plusSign,by simp,rfl⟩
        (mem_metaText.mpr (hm.resolve_left hnil))
    have hletters : metadataRegexp.letters (fun _ => True) := by
      simp [metadataRegexp,Regex.letters,chr,words,dotted,Regex.plus]
    rw [finish_stops plusSign (by simp [hplus]),Option.none_or]
    apply Regex.first_of_mem (y := []) hletters (by simp) (by simpa using hplus) hmem
    · intro u _ a ha _
      exact finish_stops a ha
    · intro u hu hend
      have hcaps (n : ℕ) (hn : n ∉ metadataRegexp.groups) := Regex.run_caps _ n hn t u hu
      have hfields : u.caps 10 = m := by
        obtain ⟨v,hv,rfl⟩ := List.mem_map.mp hu
        have hm := (chr_group_caps hplus hv).2
        have hvend : v.rest = [] := hend
        simpa [hvend] using hm.symm
      simp [finish,hend,fields,hfields,hcaps 1 (by decide),hcaps 4 (by decide),hcaps 7 (by decide)]

theorem plusText_head : ∀ a ∈ (plusText m).head?, ¬a ≠ plusSign := by
  unfold plusText
  split_ifs <;> simp

theorem release_plus (h : Release x p) : ∀ a ∈ x, a ≠ plusSign := by
  cases h with
  | absent => simp
  | dashed p hp =>
    intro a ha
    rcases List.mem_cons.mp ha with rfl | ha
    · decide
    · exact identifiers_plus hp a ha
  | bare p hp => exact identifiers_plus hp

theorem finishRelease_none (hx : ∀ a ∈ t.rest.head?, isAlpha a = false) :
    finishRelease t = finishMetadata t := by
  have hnone : (Regex.group 3 (.alt numericRelease alphaRelease)).first t finishMetadata = none := by
    apply Regex.first_eq_none
    intro u hu
    obtain ⟨w,hw,hr⟩ := Regex.run_sound _ t u hu
    obtain ⟨b,v,rfl,hb⟩ := release_head hw
    have := hx b (by simp [hr])
    simp [hb] at this
  rw [finishRelease,Regex.first_opt_greedy,hnone,Option.none_or]

theorem finishRelease_stops :
    ∀ a ∈ t.rest.head?, isDecimal a = true ∨ a = dot → finishRelease t = none := by
  intro a ha hbase
  have halpha : isAlpha a = false :=
    isAlpha_plain (hbase.imp_right Or.inl) (by rintro rfl; exact absurd hbase (by decide))
  have hplus : a ≠ plusSign := ne_of_plain (hbase.imp_right Or.inl) (by decide) (by decide) (by decide)
  rw [finishRelease_none (fun b hb => by simp_all),finishMetadata_stops a ha hplus]

structure Closes (t : State UInt8) (p m : Str) (k : State UInt8 → Option (Str × Str × Str)) : Prop where
  stops : ∀ u : State UInt8, ∀ a ∈ u.rest.head?, a ≠ plusSign → k u = none
  ends : ∀ u : State UInt8, u.caps 1 = t.caps 1 → (if u.caps 7 = [] then u.caps 4 else u.caps 7) = p →
    u.caps 10 = [] → u.rest = plusText m → k u = some (t.caps 1,p,m)

theorem Closes.update {k : State UInt8 → Option (Str × Str × Str)} (h : Closes t p m k) (n : ℕ)
    (hn : n ∉ [1,4,7,10]) (c : State UInt8 → Str) :
    Closes t p m (fun u => k { u with caps := Function.update u.caps n (c u) }) := by
  simp only [List.mem_cons,List.not_mem_nil,or_false,not_or] at hn
  constructor
  · intro u
    exact h.stops { u with caps := Function.update u.caps n (c u) }
  · intro u h1 h7 h10 hrest
    apply h.ends { u with caps := Function.update u.caps n (c u) } _ _ _ hrest
    · simpa [Function.update_of_ne (Ne.symm hn.1)] using h1
    · simpa [Function.update_of_ne (Ne.symm hn.2.1),Function.update_of_ne (Ne.symm hn.2.2.1)] using h7
    · simpa [Function.update_of_ne (Ne.symm hn.2.2.2)] using h10

theorem finishMetadata_closes (hm : IsMetadata m) : Closes t p m finishMetadata := by
  constructor
  · intro u
    exact finishMetadata_stops
  · intro u h1 h7 h10 hrest
    rw [finishMetadata_ends hm h10 hrest,fields,h1,h7]

section alternatives
variable {k : State UInt8 → Option (Str × Str × Str)}

theorem Closes.first_none (h : Closes t p m k) {r : Regex UInt8} (hr : r.letters (· ≠ plusSign))
    (hx : ∀ a ∈ x, a ≠ plusSign) (ht : t.rest = x ++ plusText m) (hno : x ∉ r.lang) :
    r.first t k = none :=
  Regex.first_of_notMem hr hx plusText_head ht hno (fun u _ => h.stops u)

theorem Closes.first_some (h : Closes t p m k) {r : Regex UInt8} (hr : r.letters (· ≠ plusSign))
    (ht : t.rest = x ++ plusText m) (hx : x ∈ r.lang) (h1 : 1 ∉ r.groups) (h10 : 10 ∉ r.groups)
    (hnil : t.caps 10 = [])
    (hp : ∀ u ∈ r.run t, u.rest = plusText m → (if u.caps 7 = [] then u.caps 4 else u.caps 7) = p) :
    r.first t k = some (t.caps 1,p,m) := by
  apply Regex.first_of_mem hr plusText_head ht hx (fun u _ => h.stops u)
  intro u hu hrest
  have hcaps (n : ℕ) (hn : n ∉ r.groups) : u.caps n = t.caps n := Regex.run_caps r n hn t u hu
  exact h.ends u (hcaps 1 h1) (hp u hu hrest) (by rw [hcaps 10 h10,hnil]) hrest

end alternatives

def dashedAlpha : Regex UInt8 := .seq (chr dash) (.group 7 alphaText)

def behindRelease (t u : State UInt8) : Option (Str × Str × Str) :=
  finishMetadata { u with caps := Function.update u.caps 3 (consumed t u) }

def behindAlpha (t u : State UInt8) : Option (Str × Str × Str) :=
  behindRelease t { u with caps := Function.update u.caps 6 (consumed t u) }

theorem finishRelease_eq : finishRelease t =
    ((numericRelease.first t (behindRelease t)).or
      ((dashedAlpha.first t (behindAlpha t)).or
        ((Regex.group 7 alphaText).first t (behindAlpha t)))).or (finishMetadata t) := by
  rw [finishRelease,Regex.first_opt_greedy,Regex.first_group,Regex.first_alt]
  change ((numericRelease.first t (behindRelease t)).or (alphaRelease.first t (behindRelease t))).or
    (finishMetadata t) = _
  congr 2
  rw [alphaRelease,Regex.first_group,Regex.first_seq,Regex.first_opt_greedy,← Regex.first_seq]
  rfl

theorem mem_chr_group {c : UInt8} {n : ℕ} {q : Regex UInt8} :
    x ∈ (Regex.seq (chr c) (.group n q)).lang ↔ ∃ y, x = c :: y ∧ y ∈ q.lang := by
  constructor
  · intro h
    obtain ⟨u,⟨b,hb,rfl⟩,y,hy,rfl⟩ := Language.mem_mul.mp h
    have hbc : b = c := by simpa using hb
    exact ⟨y,by rw [hbc]; rfl,hy⟩
  · rintro ⟨y,rfl,hy⟩
    exact Language.append_mem_mul (a := [c]) ⟨c,by simp,rfl⟩ hy

theorem dash_plus : ∀ b, (b == dash) = true → b ≠ plusSign := by
  intro b hb
  rw [eq_of_beq hb]
  decide

theorem finishRelease_ends (hx : Release x p) (hm : IsMetadata m) (h4 : t.caps 4 = [])
    (h7 : t.caps 7 = []) (h10 : t.caps 10 = []) (ht : t.rest = x ++ plusText m) :
    finishRelease t = some (t.caps 1,p,m) := by
  have hr : Closes t p m (behindRelease t) :=
    (finishMetadata_closes hm).update 3 (by decide) (consumed t)
  have ha : Closes t p m (behindAlpha t) := hr.update 6 (by decide) (consumed t)
  have hplus := release_plus hx
  have hletters : numericRelease.letters (· ≠ plusSign) := ⟨dash_plus,text_letters.2.1⟩
  have hdashed : dashedAlpha.letters (· ≠ plusSign) := ⟨dash_plus,text_letters.2.2⟩
  have hkeep (r : Regex UInt8) (n : ℕ) (hn : n ∉ r.groups) (u) (hu : u ∈ r.run t) :
      u.caps n = t.caps n := Regex.run_caps r n hn t u hu
  cases hx with
  | absent =>
    have hhead : ∀ a ∈ t.rest.head?, isAlpha a = false := by
      rw [ht]
      intro a ha
      have : a = plusSign := not_not.mp (plusText_head a ha)
      rw [this]
      decide
    rw [finishRelease_none hhead,finishMetadata_ends hm h10 ht]
    simp [fields,h4,h7]
  | dashed p hp =>
    have htake {n : ℕ} {q : Regex UInt8} {u : State UInt8}
        (hu : u ∈ (Regex.seq (chr dash) (.group n q)).run t) (hend : u.rest = plusText m) :
        u.caps n = p := by
      have := (chr_group_caps ht hu).2
      rw [hend] at this
      exact (List.append_cancel_right this).symm
    obtain ⟨b,q,rfl⟩ := List.exists_cons_of_ne_nil (identifiers_ne_nil hp)
    by_cases hdigit : isDecimal b = true
    · have hmem : dash :: b :: q ∈ numericRelease.lang :=
        mem_chr_group.mpr ⟨_,rfl,mem_numericText.mpr ⟨hp,by simpa using hdigit⟩⟩
      rw [finishRelease_eq,hr.first_some hletters ht hmem (by decide) (by decide) h10]
      · rfl
      · intro u hu hend
        rw [if_pos ((hkeep _ 7 (by decide) u hu).trans h7),htake hu hend]
    · have hnum : dash :: b :: q ∉ numericRelease.lang := by
        rw [numericRelease,mem_chr_group]
        rintro ⟨y,hy,hmem⟩
        obtain rfl := (List.cons.inj hy).2
        exact hdigit ((mem_numericText.mp hmem).2 b (by simp))
      have halpha : isAlpha b = true := by
        simpa [isWord,hdigit] using identifiers_head hp b (by simp)
      have hmem : dash :: b :: q ∈ dashedAlpha.lang :=
        mem_chr_group.mpr ⟨_,rfl,mem_alphaText.mpr ⟨hp,by simpa using halpha⟩⟩
      rw [finishRelease_eq,hr.first_none hletters hplus ht hnum,
        ha.first_some hdashed ht hmem (by decide) (by decide) h10]
      · rfl
      · intro u hu hend
        rw [htake hu hend,if_neg (by simp)]
  | bare p hp hhead hundashed =>
    have hnum : x ∉ numericRelease.lang := by
      rw [numericRelease,mem_chr_group]
      rintro ⟨y,rfl,hmem⟩
      exact hundashed y rfl (mem_numericText.mp hmem).1
    have hno : x ∉ dashedAlpha.lang := by
      rw [dashedAlpha,mem_chr_group]
      rintro ⟨y,rfl,hmem⟩
      exact hundashed y rfl (mem_alphaText.mp hmem).1
    have hmem : x ∈ (Regex.group 7 alphaText).lang := mem_alphaText.mpr ⟨hp,hhead⟩
    rw [finishRelease_eq,hr.first_none hletters hplus ht hnum,ha.first_none hdashed hplus ht hno,
      ha.first_some (r := .group 7 alphaText) text_letters.2.2 ht hmem (by decide) (by decide) h10]
    · rfl
    · intro u hu hend
      have hrun := (Regex.run_group 7 alphaText t u hu).2
      rw [ht,hend] at hrun
      rw [← List.append_cancel_right hrun,if_neg (identifiers_ne_nil hp)]

theorem release_base (hx : Release x p) :
    ∀ a ∈ (x ++ plusText m).head?, ¬(isDecimal a = true ∨ a = dot) := by
  have hplus : ∀ a ∈ (plusText m).head?, ¬(isDecimal a = true ∨ a = dot) := by
    intro a ha
    rw [not_not.mp (plusText_head a ha)]
    decide
  have halpha (b : UInt8) (hb : isAlpha b = true) : ¬(isDecimal b = true ∨ b = dot) := by
    intro h
    rw [isAlpha_plain (h.imp_right Or.inl) (by rintro rfl; exact absurd h (by decide))] at hb
    cases hb
  cases hx with
  | absent => exact hplus
  | dashed p hp =>
    intro a ha
    obtain rfl : dash = a := by simpa using ha
    decide
  | bare p hp hhead =>
    obtain ⟨b,q,rfl⟩ := List.exists_cons_of_ne_nil (identifiers_ne_nil hp)
    intro a ha
    obtain rfl : b = a := by simpa using ha
    exact halpha b (hhead b (by simp))

variable {bs : List Str}

theorem base_first (h : Spelled bs x p m) (h4 : t.caps 4 = []) (h7 : t.caps 7 = [])
    (h10 : t.caps 10 = []) (ht : t.rest = join bs dot ++ (x ++ plusText m)) :
    baseRegexp.first t finishRelease = some (join bs dot,p,m) := by
  apply Regex.first_of_mem base_letters (release_base h.release) ht
    (join_mem_base h.nonempty h.numerals)
  · intro u _
    exact finishRelease_stops
  · intro u hu hrest
    have hcaps (n : ℕ) (hn : n ∉ baseRegexp.groups) : u.caps n = t.caps n :=
      Regex.run_caps _ n hn t u hu
    have h1 := (Regex.run_group 1 _ t u hu).2
    rw [ht,hrest] at h1
    rw [finishRelease_ends h.release h.metadata (by rw [hcaps 4 (by decide),h4])
      (by rw [hcaps 7 (by decide),h7]) (by rw [hcaps 10 (by decide),h10]) hrest,
      ← List.append_cancel_right h1]

theorem fullMatch_written (h : Spelled bs x p m) (v : Bool) :
    (versionRegexp.fullMatch (written v bs x m)).map fields = some (join bs dot,p,m) := by
  rw [Regex.fullMatch_map]
  change versionRegexp.first (State.start (written v bs x m)) finish = _
  rw [versionRegexp,Regex.first_seq,Regex.first_opt_greedy]
  simp only [Regex.first_seq]
  change ((chr 0x76).first _ (fun t => baseRegexp.first t finishRelease)).or
    (baseRegexp.first _ finishRelease) = _
  cases v with
  | true =>
    have hv : (chr 0x76).first (State.start (written true bs x m))
        (fun t => baseRegexp.first t finishRelease) = some (join bs dot,p,m) := by
      have hrun : (chr 0x76).run (State.start (written true bs x m)) =
          [State.start (join bs dot ++ (x ++ plusText m))] := by
        simp [chr,Regex.run,State.start,written]
      rw [Regex.first,hrun,List.findSome?_singleton]
      exact base_first h rfl rfl rfl rfl
    rw [hv]
    rfl
  | false =>
    have hv : (chr 0x76).first (State.start (written false bs x m))
        (fun t => baseRegexp.first t finishRelease) = none := by
      apply Regex.first_eq_none
      intro u hu
      obtain ⟨w,⟨b,hb,rfl⟩,hw⟩ := Regex.run_sound _ _ u hu
      obtain ⟨y,ys,rfl⟩ := List.exists_cons_of_ne_nil h.nonempty
      have hy := h.numerals y (by simp)
      obtain ⟨a,q,rfl⟩ := List.exists_cons_of_ne_nil hy.1
      have hab : a = b := by
        have := congrArg List.head? hw
        rw [show (State.start (written false ((a :: q) :: ys) x m)).rest =
          join ((a :: q) :: ys) dot ++ (x ++ plusText m) from rfl,List.head?_append,
          head?_join ys (by simp)] at this
        simpa using this
      have ha := hy.2 a (by simp)
      rw [hab,eq_of_beq hb] at ha
      exact absurd ha (by decide)
    rw [hv,Option.none_or]
    exact base_first h rfl rfl rfl rfl

theorem exists_release {w : Str}
    (hw : w ∈ (Regex.opt true (.group 3 (.alt numericRelease alphaRelease))).lang) :
    ∃ p, Release w p := by
  rcases hw with (h | h) | h
  · obtain ⟨y,rfl,hy⟩ := mem_chr_group.mp h
    exact ⟨y,.dashed y (mem_numericText.mp hy).1⟩
  · obtain ⟨u,hu,y,hy,rfl⟩ := Language.mem_mul.mp h
    obtain ⟨hp,hhead⟩ := mem_alphaText.mp hy
    rcases hu with ⟨b,hb,rfl⟩ | hnil
    · rw [eq_of_beq hb]
      exact ⟨y,.dashed y hp⟩
    · have hnil : u = [] := hnil
      rw [hnil,List.nil_append]
      by_cases hdash : ∃ q, y = dash :: q ∧ Identifiers q
      · obtain ⟨q,rfl,hq⟩ := hdash
        exact ⟨q,.dashed q hq⟩
      · exact ⟨y,.bare y hp hhead (fun q hq hid => hdash ⟨q,hq,hid⟩)⟩
  · have hnil : w = [] := h
    exact ⟨[],hnil ▸ .absent⟩

theorem exists_spelled {s : Str} (hs : s ∈ versionRegexp.lang) :
    ∃ v bs x p m, Spelled bs x p m ∧ s = written v bs x m := by
  obtain ⟨u,hu,_,hbase,rfl⟩ := Language.mem_mul.mp hs
  obtain ⟨b,hb,_,hrest,rfl⟩ := Language.mem_mul.mp hbase
  obtain ⟨x,hx,y,hy,rfl⟩ := Language.mem_mul.mp hrest
  obtain ⟨p,hp⟩ := exists_release hx
  have hsep : ∀ z ∈ (chr dot).lang, z = [dot] := by
    rintro z ⟨c,hc,rfl⟩
    simpa using hc
  obtain ⟨z,zs,rfl,hz,hzs⟩ := Regex.exists_intercalate (q := digits) (g := false) hsep hb
  have hnum : ∀ w ∈ z :: zs, IsNumeral w := by
    intro w hw
    rcases List.mem_cons.mp hw with rfl | hw
    · exact Regex.mem_lang_plus_set.mp hz
    · exact Regex.mem_lang_plus_set.mp (hzs w hw)
  have hmeta : ∃ m, IsMetadata m ∧ y = plusText m := by
    rcases hy with hy | hy
    · obtain ⟨m,rfl,hm⟩ := mem_chr_group.mp hy
      have hm := mem_metaText.mp hm
      exact ⟨m,Or.inr hm,by simp [plusText,identifiers_ne_nil hm]⟩
    · have hnil : y = [] := hy
      exact ⟨[],Or.inl rfl,by simp [plusText,hnil]⟩
  obtain ⟨m,hm,rfl⟩ := hmeta
  have hv : ∃ v : Bool, u = if v then [0x76] else [] := by
    rcases hu with ⟨c,hc,rfl⟩ | hu
    · exact ⟨true,by simp [eq_of_beq hc]⟩
    · exact ⟨false,hu⟩
  obtain ⟨v,rfl⟩ := hv
  exact ⟨v,z :: zs,x,p,m,⟨by simp,hnum,hp,hm⟩,rfl⟩

end finish

def reading (s : Str) (bs : List Str) (p m : Str) : Except Str Version :=
  match bs.find? (fun b => maxInt64 < (decimal b : ℤ)) with
  | some b => .error (str "Error parsing version: " ++ numError b .errRange)
  | none => .ok
      { metadata := m
        pre := p
        segments := bs.map (fun b => (decimal b : ℤ)) ++ List.replicate (3 - bs.length) 0
        si := bs.length
        original := s }

theorem parsed_eq_reading {s p m : Str} {bs : List Str} (hne : bs ≠ []) (hb : ∀ b ∈ bs, IsNumeral b) :
    parsed s (join bs dot,p,[],m) = reading s bs p m := by
  have hsplit : split (join bs dot) dot = bs :=
    List.splitOn_intercalate dot (fun x hx => numeral_dot (hb x hx)) hne
  have hparse : ∀ xs : List Str, (∀ b ∈ xs, IsNumeral b) →
      parseSegments xs = match xs.find? (fun b => maxInt64 < (decimal b : ℤ)) with
        | some b => .error (numError b .errRange)
        | none => .ok (xs.map (fun b => (decimal b : ℤ))) := by
    intro xs hxs
    induction xs with
    | nil => rfl
    | cons x xs ih =>
      simp only [List.mem_cons,forall_eq_or_imp] at hxs
      rw [parseSegments]
      by_cases hfit : (decimal x : ℤ) ≤ maxInt64
      · rw [parseInt_decimal x hxs.1.1 hxs.1.2 hfit,ih hxs.2,
          List.find?_cons_of_neg (by simpa using hfit)]
        cases xs.find? (fun b => maxInt64 < (decimal b : ℤ)) <;> rfl
      · rw [parseInt_range x hxs.1.1 hxs.1.2 (not_le.mp hfit),
          List.find?_cons_of_pos (by simpa using hfit)]
  rw [parsed,hsplit,hparse bs hb,reading]
  cases bs.find? (fun b => maxInt64 < (decimal b : ℤ)) <;> simp

theorem newVersion_reads {bs : List Str} {x p m : Str} (h : Spelled bs x p m) (v : Bool) :
    NewVersion (written v bs x m) = .ok (reading (written v bs x m) bs p m) := by
  have hm := fullMatch_written h v
  rw [NewVersion,newVersion_eq]
  cases ht : versionRegexp.fullMatch (written v bs x m) with
  | none => simp [ht] at hm
  | some t =>
    have hf : fields t = (join bs dot,p,m) := by simpa [ht] using hm
    simp only [fields,Prod.mk.injEq] at hf
    rw [← parsed_eq_reading h.nonempty h.numerals,← hf.1,← hf.2.1,← hf.2.2]
    simp [parsed,subexps]

theorem newVersion_malformed {s : Str}
    (hs : ¬∃ v bs x p m, Spelled bs x p m ∧ s = written v bs x m) :
    NewVersion s = .ok (.error (str "Malformed version: " ++ s)) := by
  rw [NewVersion,newVersion_eq]
  cases ht : versionRegexp.fullMatch s with
  | none => rfl
  | some t => exact absurd (exists_spelled (Regex.mem_lang_of_fullMatch _ ht)) hs

section canonical
variable {s : Str} {v : Version}

structure Version.Canonical (v : Version) : Prop where
  three : 3 ≤ v.segments.length
  nonneg : ∀ n ∈ v.segments, 0 ≤ n
  fits : ∀ n ∈ v.segments, n ≤ maxInt64
  pre : v.pre = [] ∨ Identifiers v.pre
  metadata : IsMetadata v.metadata

theorem release_value {x p : Str} (h : Release x p) : p = [] ∨ Identifiers p := by
  cases h with
  | absent => exact Or.inl rfl
  | dashed p hp => exact Or.inr hp
  | bare p hp => exact Or.inr hp

theorem newVersion_canonical (h : NewVersion s = .ok (.ok v)) : v.Canonical := by
  by_cases hs : ∃ v bs x p m, Spelled bs x p m ∧ s = written v bs x m
  · obtain ⟨w,bs,x,p,m,hs,rfl⟩ := hs
    have hr := newVersion_reads hs w
    rw [h,Except.ok.injEq,reading] at hr
    cases hf : bs.find? (fun b => maxInt64 < (decimal b : ℤ)) with
    | some b => simp [hf] at hr
    | none =>
      have hfit : ∀ b ∈ bs, (decimal b : ℤ) ≤ maxInt64 := by simpa using hf
      rw [hf] at hr
      have hv := Except.ok.inj hr
      have hseg : ∀ n ∈ v.segments, 0 ≤ n ∧ n ≤ maxInt64 := by
        intro n hn
        rw [hv] at hn
        rcases List.mem_append.mp hn with hn | hn
        · obtain ⟨b,hb,rfl⟩ := List.mem_map.mp hn
          exact ⟨Int.natCast_nonneg _,hfit b hb⟩
        · rw [List.eq_of_mem_replicate hn]
          decide
      constructor
      · rw [hv]
        simp
        omega
      · exact fun n hn => (hseg n hn).1
      · exact fun n hn => (hseg n hn).2
      · rw [hv]
        exact release_value hs.release
      · rw [hv]
        exact hs.metadata
  · rw [newVersion_malformed hs] at h
    cases h

theorem canonical_spelled (h : v.Canonical) :
    Spelled (v.segments.map formatInt) (if v.pre ≠ [] then dash :: v.pre else []) v.pre v.metadata := by
  constructor
  · intro hnil
    have := h.three
    simp [List.map_eq_nil_iff.mp hnil] at this
  · intro b hb
    obtain ⟨n,hn,rfl⟩ := List.mem_map.mp hb
    have h0 := h.nonneg n hn
    lift n to ℕ using h0
    obtain ⟨c,-,hc⟩ := formatInt_head n
    exact ⟨by rintro hnil; simp [hnil] at hc,formatInt_decimal n⟩
  · rcases h.pre with hp | hp
    · simpa [hp] using Release.absent
    · simpa [identifiers_ne_nil hp] using Release.dashed _ hp
  · exact h.metadata

theorem string_eq_written : v.string =
    written false (v.segments.map formatInt) (if v.pre ≠ [] then dash :: v.pre else []) v.metadata := by
  simp [Version.string,written,plusText]

theorem reading_string (h : v.Canonical) :
    reading v.string (v.segments.map formatInt) v.pre v.metadata =
      .ok { v with si := v.segments.length, original := v.string } := by
  have hdecimal : ∀ n ∈ v.segments, ((decimal (formatInt n) : ℕ) : ℤ) = n := by
    intro n hn
    have h0 := h.nonneg n hn
    lift n to ℕ using h0
    rw [decimal_formatInt]
  have hfind : (v.segments.map formatInt).find? (fun b => maxInt64 < (decimal b : ℤ)) = none := by
    rw [List.find?_eq_none]
    intro b hb
    obtain ⟨n,hn,rfl⟩ := List.mem_map.mp hb
    simpa [hdecimal n hn] using h.fits n hn
  have hmap : (v.segments.map formatInt).map (fun b => (decimal b : ℤ)) = v.segments := by
    rw [List.map_map]
    exact (List.map_congr_left hdecimal).trans (List.map_id _)
  have hpad : 3 - (v.segments.map formatInt).length = 0 := by
    rw [List.length_map]
    have := h.three
    omega
  rw [reading,hfind,hmap,hpad]
  simp

theorem newVersion_string (h : NewVersion s = .ok (.ok v)) :
    NewVersion v.string = .ok (.ok { v with si := v.segments.length, original := v.string }) := by
  have hv := newVersion_canonical h
  have hread := newVersion_reads (canonical_spelled hv) false
  rwa [← string_eq_written,reading_string hv] at hread

theorem newVersion_string_loose :
    ∃ v : Version, NewVersion (str "v1.2rc1+b.7") = .ok (.ok v) ∧ v.string = str "1.2.0-rc1+b.7" ∧
      NewVersion v.string = .ok (.ok { v with si := 3, original := v.string }) := by
  have h : NewVersion (str "v1.2rc1+b.7") = .ok (.ok
      { metadata := str "b.7", pre := str "rc1", segments := [1,2,0], si := 2
        original := str "v1.2rc1+b.7" }) := by decide +kernel
  exact ⟨_,h,by decide,newVersion_string h⟩

theorem string_determines {other : Version} {r : Str} (h : NewVersion s = .ok (.ok v))
    (ho : NewVersion r = .ok (.ok other)) (he : v.string = other.string) :
    v.segments = other.segments ∧ v.pre = other.pre ∧ v.metadata = other.metadata := by
  have hv := newVersion_reads (canonical_spelled (newVersion_canonical h)) false
  have hw := newVersion_reads (canonical_spelled (newVersion_canonical ho)) false
  rw [← string_eq_written,reading_string (newVersion_canonical h)] at hv
  rw [← string_eq_written,reading_string (newVersion_canonical ho),← he,hv] at hw
  have := Except.ok.inj (Except.ok.inj hw)
  simp only [Version.mk.injEq] at this
  exact ⟨this.2.2.1,this.2.1,this.1⟩

theorem compare_parsed {other : Version} {r : Str} (h : NewVersion s = .ok (.ok v))
    (ho : NewVersion r = .ok (.ok other)) : v.compare other = .ok (order v other) := by
  apply compare_eq_order (newVersion_canonical h).nonneg (newVersion_canonical ho).nonneg
  intro he
  obtain ⟨hseg,hpre,-⟩ := string_determines h ho he
  exact ⟨hseg,hpre⟩

theorem compare_parsed_metadata :
    ∃ v other : Version, NewVersion (str "v1.2rc1+a") = .ok (.ok v) ∧
      NewVersion (str "1.2.0-rc1+b") = .ok (.ok other) ∧ v.string ≠ other.string ∧
      v.compare other = .ok 0 := by
  have h : NewVersion (str "v1.2rc1+a") = .ok (.ok
      { metadata := str "a", pre := str "rc1", segments := [1,2,0], si := 2
        original := str "v1.2rc1+a" }) := by decide +kernel
  have ho : NewVersion (str "1.2.0-rc1+b") = .ok (.ok
      { metadata := str "b", pre := str "rc1", segments := [1,2,0], si := 3
        original := str "1.2.0-rc1+b" }) := by decide +kernel
  exact ⟨_,_,h,ho,by decide,compare_parsed h ho⟩

end canonical

end GoVersion
