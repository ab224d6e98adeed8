import KvmInfo.VersionInfo.Run
import KvmInfo.VersionInfo.Sanitize

namespace VersionInfo
open Go GoVersion PaddedLex OsRelease

structure Numeral where
  text : Str
  numeral : IsNumeral text
  fits : (decimal text : ℤ) ≤ maxInt64

def Numeral.value (n : Numeral) : ℤ := decimal n.text

def IsSuffix (s : Str) : Prop :=
  s = [] ∨ startsTag s ∨ ∃ sep tag, s = sep :: tag ∧ (sep = dot ∨ sep = dash) ∧ startsTag tag

structure Kernel where
  base : List Numeral
  release : List Numeral
  suffix : Str
  base_ne : base ≠ []
  base_le : base.length ≤ 3
  suffix_shape : IsSuffix suffix

def texts (xs : List Numeral) : List Str := xs.map Numeral.text

def values (xs : List Numeral) : List ℤ := xs.map Numeral.value

def Kernel.version (k : Kernel) : Version where
  metadata := []
  pre := join (texts k.release) dot
  segments := values k.base ++ List.replicate (3 - k.base.length) 0
  si := k.base.length
  original := join (texts k.base) dot ++ releaseTail (texts k.release)

def Kernel.text (k : Kernel) : Str := k.version.original ++ k.suffix

def Kernel.baseOnly (k : Kernel) : Kernel :=
  { k with release := [],suffix := [],suffix_shape := Or.inl rfl }

def Kernel.key (k : Kernel) : List ℤ ×ₗ List ℤ :=
  toLex (values k.base ++ List.replicate (3 - k.base.length) 0,values k.release)

structure Kernel.Numbered (k : Kernel) : Prop where
  released : k.release ≠ []
  canonical : ∀ r ∈ k.release, ¬LeadingZero r.text

section numerals
variable {x y : Str}

theorem join_last {xs : List Str} (hne : xs ≠ []) (hx : ∀ x ∈ xs, IsNumeral x) :
    ∃ b, (join xs dot).getLast? = some b ∧ isDecimal b = true := by
  induction xs with
  | nil => exact absurd rfl hne
  | cons x xs ih =>
    simp only [List.mem_cons,forall_eq_or_imp] at hx
    cases xs with
    | nil =>
      have hj : join [x] dot = x := by simp [join]
      rw [hj]
      exact ⟨x.getLast hx.1.1,List.getLast?_eq_some_getLast hx.1.1,hx.1.2 _ (List.getLast_mem _)⟩
    | cons y ys =>
      obtain ⟨b,hb,hd⟩ := ih (by simp) hx.2
      refine ⟨b,?_,hd⟩
      rw [join,List.intercalate_cons_cons,List.getLast?_append]
      rw [join] at hb
      simp [hb]

theorem join_ne_nil {xs : List Str} (hne : xs ≠ []) (hx : ∀ x ∈ xs, IsNumeral x) :
    join xs dot ≠ [] := by
  intro h
  obtain ⟨b,hb,-⟩ := join_last hne hx
  simp [h] at hb

theorem sanitizeVersion_suffix {p s : Str} (hp : ∀ b ∈ p, versionByte b)
    (hlast : ∃ b, p.getLast? = some b ∧ isDecimal b = true) (hs : IsSuffix s) :
    sanitizeVersion (p ++ s) = .ok p := by
  have hrun := versionRun_plain hp
  rcases hs with rfl | hs | ⟨sep,tag,rfl,hsep,htag⟩
  · rw [List.append_nil]
    exact sanitizeVersion_run hrun
  · exact sanitizeVersion_tag hrun (endsWith_plain hp hlast) hs
  · exact sanitizeVersion_separator hrun hsep htag

theorem comparePart_numerals (hx : IsNumeral x) (hy : IsNumeral y)
    (hxf : (decimal x : ℤ) ≤ maxInt64) (hyf : (decimal y : ℤ) ≤ maxInt64) (hxz : ¬LeadingZero x)
    (hyz : ¬LeadingZero y) : comparePart x y = signCmp (decimal x : ℤ) (decimal y) := by
  by_cases he : x = y
  · simp [he,comparePart_self,signCmp]
  · have hne : decimal x ≠ decimal y := by
      intro h
      apply he
      rw [← formatInt_decimal_eq x hx.1 hx.2 hxz,h,formatInt_decimal_eq y hy.1 hy.2 hyz]
    rw [comparePart,if_neg he,parseInt_decimal x hx.1 hx.2 hxf,parseInt_decimal y hy.1 hy.2 hyf]
    rcases Nat.lt_or_gt_of_ne hne with h | h
    · simp [hx.1,hy.1,signCmp,hne,h,h.not_gt]
    · simp [hx.1,hy.1,signCmp,hne,h,h.not_gt]

theorem comparePart_missing (hy : IsNumeral y) (hyf : (decimal y : ℤ) ≤ maxInt64) :
    comparePart [] y = -1 := by
  simp [comparePart,parseInt_decimal y hy.1 hy.2 hyf,Ne.symm hy.1]

theorem comparePart_extra (hx : IsNumeral x) (hxf : (decimal x : ℤ) ≤ maxInt64) :
    comparePart x [] = 1 := by
  simp [comparePart,parseInt_decimal x hx.1 hx.2 hxf,hx.1]

theorem texts_numeral (xs : List Numeral) : ∀ x ∈ texts xs, IsNumeral x := by
  intro x hx
  obtain ⟨n,-,rfl⟩ := List.mem_map.mp hx
  exact n.numeral

theorem texts_fit (xs : List Numeral) : ∀ x ∈ texts xs, (decimal x : ℤ) ≤ maxInt64 := by
  intro x hx
  obtain ⟨n,-,rfl⟩ := List.mem_map.mp hx
  exact n.fits

theorem texts_values (xs : List Numeral) : (texts xs).map (fun x => (decimal x : ℤ)) = values xs := by
  simp [texts,values,Numeral.value]

theorem texts_ne_nil {xs : List Numeral} (h : xs ≠ []) : texts xs ≠ [] := by simpa [texts] using h

end numerals

section kernels
variable (h k : Kernel)

theorem Kernel.sanitize : sanitizeVersion k.text = .ok k.version.original := by
  have hbase := texts_numeral k.base
  have hrel := texts_numeral k.release
  apply sanitizeVersion_suffix (kernel_plain hbase hrel) _ k.suffix_shape
  obtain ⟨b,hb,hd⟩ := join_last (texts_ne_nil k.base_ne) hbase
  by_cases hne : texts k.release = []
  · exact ⟨b,by simpa [version,releaseTail,hne] using hb,hd⟩
  · obtain ⟨c,hc,hcd⟩ := join_last hne hrel
    refine ⟨c,?_,hcd⟩
    simp [releaseTail,hne,List.getLast?_append,List.getLast?_cons,hc]

theorem Kernel.read : readBound k.text = .ok (.ok k.version) := by
  rw [readBound,k.sanitize]
  have := newVersion_kernel (texts_ne_nil k.base_ne) (texts_numeral k.base) (texts_fit k.base)
    (texts_numeral k.release)
  rw [texts_values] at this
  change NewVersion k.version.original = _
  simpa [version,texts] using this

theorem Kernel.text_ne_nil : k.text ≠ [] := by
  have := join_ne_nil (texts_ne_nil k.base_ne) (texts_numeral k.base)
  simp [text,version,this]

theorem Kernel.plain : k.version.Plain := readBound_plain k.read

theorem Kernel.segments_length : k.version.segments.length = 3 := by
  have := k.base_le
  simp [version,values]
  omega

theorem releases_cmp {h k : Kernel} (hh : h.Numbered) (hk : k.Numbered) :
    releaseCmp h.version.pre k.version.pre = signCmp (values h.release) (values k.release) := by
  have hhn := texts_numeral h.release
  have hkn := texts_numeral k.release
  have hsplit (r : List Numeral) (hr : r ≠ []) : split (join (texts r) dot) dot = texts r :=
    List.splitOn_intercalate dot (fun x hx => numeral_dot (texts_numeral r x hx)) (texts_ne_nil hr)
  have hz (r : List Numeral) (hr : ∀ n ∈ r, ¬LeadingZero n.text) : ∀ x ∈ texts r, ¬LeadingZero x := by
    intro x hx
    obtain ⟨n,hn,rfl⟩ := List.mem_map.mp hx
    exact hr n hn
  have hhp : h.version.pre ≠ [] := join_ne_nil (texts_ne_nil hh.released) hhn
  have hkp : k.version.pre ≠ [] := join_ne_nil (texts_ne_nil hk.released) hkn
  rw [releaseCmp,if_neg (by simp [hhp]),if_neg hhp,if_neg hkp]
  change paddedCmp comparePart [] (split (join (texts h.release) dot) dot)
    (split (join (texts k.release) dot) dot) = _
  rw [hsplit _ hh.released,hsplit _ hk.released,← texts_values,← texts_values]
  apply paddedCmp_eq_signCmp
  · intro x hx y hy
    exact comparePart_numerals (hhn x hx) (hkn y hy) (texts_fit _ x hx) (texts_fit _ y hy)
      (hz _ hh.canonical x hx) (hz _ hk.canonical y hy)
  · right
    exact ⟨fun y hy => comparePart_missing (hkn y hy) (texts_fit _ y hy),
      fun x hx => comparePart_extra (hhn x hx) (texts_fit _ x hx)⟩

theorem kernels_cmp {h k : Kernel} (hh : h.Numbered) (hk : k.Numbered) :
    h.version.compare k.version = .ok (signCmp h.key k.key) := by
  have hbase : baseCmp h.version k.version = signCmp h.version.segments k.version.segments :=
    paddedCmp_same_length (h.segments_length.trans k.segments_length.symm)
  have hkey (k : Kernel) : k.key = toLex (k.version.segments,values k.release) := rfl
  rw [compare_eq h.plain k.plain,hkey,hkey,signCmp_toLex,order,releases_cmp hh hk,hbase]
  by_cases hseg : h.version.segments = k.version.segments
  · rw [if_pos hseg,if_pos hseg]
  · rw [if_neg hseg,if_neg hseg]

end kernels

def boundText : Option Kernel → Str
  | none => []
  | some k => k.text

def Host (env : Env) (conf : Config) (word : Str) : Prop :=
  ∃ data, env.readFile (procVersion conf) = .ok data ∧ (split data space)[2]? = some word

theorem host_version {env : Env} {conf : Config} {k : Kernel} (h : Host env conf k.text) :
    kernelVersion env conf = .ok (.ok k.version) := by
  obtain ⟨data,hread,hword⟩ := h
  rw [kernelVersion_word hread hword,k.read]

theorem third_word {w rest : Str} (hw : space ∉ w) (hr : rest = [] ∨ rest.head? = some space) :
    (split (str "Linux version " ++ (w ++ rest)) space)[2]? = some w := by
  have hstr : str "Linux version " = str "Linux" ++ space :: (str "version" ++ [space]) := by decide
  have hfirst : space ∉ str "Linux" := by decide
  have hsecond : space ∉ str "version" := by decide
  rw [hstr,List.append_assoc,List.cons_append,List.append_assoc,List.singleton_append,split,
    List.splitOn_append_cons_self_of_not_mem hfirst,
    List.splitOn_append_cons_self_of_not_mem hsecond]
  rcases hr with rfl | hr
  · simp [List.splitOn_eq_singleton hw]
  · obtain ⟨u,rfl⟩ : ∃ u, rest = space :: u := by
      cases rest with
      | nil => simp at hr
      | cons b u => exact ⟨u,by simpa using hr⟩
    simp [List.splitOn_append_cons_self_of_not_mem hw]

theorem boundHolds_kernel {fails : ℤ → Bool} {h : Kernel} {bound : Option Kernel}
    (hh : h.Numbered) (hb : ∀ k ∈ bound, k.Numbered) :
    BoundHolds fails (boundText bound) h.version ↔
      ∀ k ∈ bound, fails (signCmp h.key k.key) = false := by
  cases bound with
  | none => simp [BoundHolds,boundText]
  | some k =>
    have hc := kernels_cmp hh (hb k rfl)
    simp [BoundHolds,boundText,k.text_ne_nil,k.read,hc]

theorem kernel_window {env : Env} {conf : Config} {host : Kernel} (hhost : Host env conf host.text)
    (hn : host.Numbered) :
    ∃ ver, kernelVersion env conf = .ok (.ok ver) ∧
      ∀ (c : Check) (os : Str) (min max : Option Kernel), c.kernelMinVer = boundText min →
        c.kernelMaxVer = boundText max → (∀ k ∈ min, k.Numbered) → (∀ k ∈ max, k.Numbered) →
        (c.isSatisfied os ver = .ok (true,none) ↔
          c.os = os ∧ (∀ k ∈ min, k.key ≤ host.key) ∧ ∀ k ∈ max, host.key ≤ k.key) := by
  refine ⟨host.version,host_version hhost,?_⟩
  intro c os min max hmin hmax hminn hmaxn
  rw [isSatisfied_true_iff,Check.Holds,hmin,hmax,boundHolds_kernel hn hminn,
    boundHolds_kernel hn hmaxn]
  simp only [decide_eq_false_iff_not,not_lt,gt_iff_lt,signCmp_nonneg_iff,signCmp_nonpos_iff]

def numeral3 : Numeral := ⟨str "3",by decide,by decide +kernel⟩
def numeral10 : Numeral := ⟨str "10",by decide,by decide +kernel⟩
def numeral0 : Numeral := ⟨str "0",by decide,by decide +kernel⟩
def numeral957 : Numeral := ⟨str "957",by decide,by decide +kernel⟩
def numeral960 : Numeral := ⟨str "960",by decide,by decide +kernel⟩

theorem isSuffix_el7 : IsSuffix (str ".el7.x86_64") :=
  Or.inr (Or.inr ⟨dot,str "el7.x86_64",by decide,Or.inl rfl,by decide,by decide⟩)

def centosKernel (release : Numeral) : Kernel where
  base := [numeral3,numeral10,numeral0]
  release := [release]
  suffix := str ".el7.x86_64"
  base_ne := by simp
  base_le := by simp
  suffix_shape := isSuffix_el7

theorem centos_numbered957 : (centosKernel numeral957).Numbered := ⟨by simp [centosKernel],by decide⟩
theorem centos_numbered960 : (centosKernel numeral960).Numbered := ⟨by simp [centosKernel],by decide⟩

def centosFiles (k : Kernel) : Env where
  readFile _ := .ok (str "Linux version " ++ (k.text ++ str " (mockbuild)"))
  decode _ := .ok ⟨[],[],[]⟩

theorem centos_host (k : Kernel) (hk : space ∉ k.text) (conf : Config) :
    Host (centosFiles k) conf k.text :=
  ⟨_,rfl,third_word hk (Or.inr rfl)⟩

theorem kernel_window_centos :
    ∃ ver, kernelVersion (centosFiles (centosKernel numeral957)) ⟨[],[],[]⟩ = .ok (.ok ver) ∧
      Check.isSatisfied
        ⟨str "centos",str "hyperv",[],(centosKernel numeral960).text⟩ (str "centos") ver =
          .ok (true,none) := by
  obtain ⟨ver,hver,h⟩ := kernel_window
    (centos_host (centosKernel numeral957) (by decide) ⟨[],[],[]⟩) centos_numbered957
  refine ⟨ver,hver,?_⟩
  rw [h _ _ none (some (centosKernel numeral960)) rfl rfl (by simp)
    (by simpa using centos_numbered960)]
  refine ⟨rfl,by simp,?_⟩
  intro k hk
  cases hk
  decide

section base_bound
variable {env : Env} {conf : Config}

theorem base_cmp {k : Kernel} (hr : k.release ≠ []) :
    k.version.compare k.baseOnly.version = .ok (-1) ∧
      k.baseOnly.version.compare k.version = .ok 1 := by
  have hpre : k.version.pre ≠ [] := join_ne_nil (texts_ne_nil hr) (texts_numeral k.release)
  have hnil : k.baseOnly.version.pre = [] := rfl
  have hseg : k.version.segments = k.baseOnly.version.segments := rfl
  rw [compare_eq k.plain k.baseOnly.plain,compare_eq k.baseOnly.plain k.plain,order,order,
    if_pos hseg,if_pos hseg.symm]
  simp [releaseCmp,hpre,hnil]

theorem minOnly_satisfied {c : Check} {os : Str} {host bound : Kernel} {d : ℤ} (hos : c.os = os)
    (hmin : c.kernelMinVer = bound.text) (hmax : c.kernelMaxVer = [])
    (hd : host.version.compare bound.version = .ok d) :
    c.isSatisfied os host.version = .ok (decide (0 ≤ d),none) := by
  have hfails : decide (d < 0) = !decide (0 ≤ d) := by rw [← decide_not,decide_eq_decide,not_le]
  have hbranch : c.minBranch host.version =
      .ok (if decide (d < 0) then some (false,none) else none) := by
    simp only [Check.minBranch,boundBranch,hmin,bound.text_ne_nil,ne_eq,not_false_eq_true,if_true,
      bound.read,bind,Except.bind,hd]
    split_ifs <;> rfl
  have hmaxBranch : c.maxBranch host.version = .ok none := by
    simp [Check.maxBranch,boundBranch,hmax,pure,Except.pure]
  rw [Check.isSatisfied,if_neg (not_not.mpr hos),hbranch,hfails,hmaxBranch]
  cases decide (0 ≤ d) <;> rfl

structure MinOnly (c : Check) (os bound : Str) : Prop where
  os : c.os = os
  min : c.kernelMinVer = bound
  max : c.kernelMaxVer = []

theorem base_bound_prerelease (env : Env) (conf : Config) (k : Kernel) (c : Check) (os : Str) :
    k.release ≠ [] →
    (Host env conf k.text → MinOnly c os k.baseOnly.text →
      ∃ ver, kernelVersion env conf = .ok (.ok ver) ∧ c.isSatisfied os ver = .ok (false,none)) ∧
    (Host env conf k.baseOnly.text → MinOnly c os k.text →
      ∃ ver, kernelVersion env conf = .ok (.ok ver) ∧ c.isSatisfied os ver = .ok (true,none)) := by
  intro hr
  obtain ⟨hlow,hhigh⟩ := base_cmp hr
  constructor
  · intro hhost hc
    exact ⟨_,host_version hhost,minOnly_satisfied hc.os hc.min hc.max hlow⟩
  · intro hhost hc
    exact ⟨_,host_version hhost,minOnly_satisfied hc.os hc.min hc.max hhigh⟩

end base_bound

theorem base_bound_prerelease_centos :
    (∃ ver, kernelVersion (centosFiles (centosKernel numeral957)) ⟨[],[],[]⟩ = .ok (.ok ver) ∧
      Check.isSatisfied ⟨str "centos",str "hyperv",str "3.10.0",[]⟩ (str "centos") ver =
        .ok (false,none)) ∧
    ∃ ver, kernelVersion (centosFiles (centosKernel numeral957).baseOnly) ⟨[],[],[]⟩ =
        .ok (.ok ver) ∧
      Check.isSatisfied ⟨str "centos",str "hyperv",str "3.10.0-957.el7.x86_64",[]⟩ (str "centos") ver =
        .ok (true,none) := by
  have hr : (centosKernel numeral957).release ≠ [] := List.cons_ne_nil _ _
  constructor
  · exact (base_bound_prerelease _ ⟨[],[],[]⟩ (centosKernel numeral957) _ _ hr).1
      (centos_host _ (by decide) _) ⟨rfl,by decide,rfl⟩
  · exact (base_bound_prerelease _ ⟨[],[],[]⟩ (centosKernel numeral957) _ _ hr).2
      (centos_host _ (by decide) _) ⟨rfl,by decide,rfl⟩

theorem base_bound_not_admitted :
    ¬∀ (env : Env) (conf : Config) (k : Kernel) (c : Check) (os : Str), k.base.length = 3 →
      k.release ≠ [] →
      (Host env conf k.text → MinOnly c os k.baseOnly.text →
        ∃ ver, kernelVersion env conf = .ok (.ok ver) ∧ c.isSatisfied os ver = .ok (true,none)) ∧
      (Host env conf k.baseOnly.text → MinOnly c os k.text →
        ∃ ver, kernelVersion env conf = .ok (.ok ver) ∧ c.isSatisfied os ver ≠ .ok (true,none)) := by
  intro h
  let c : Check := ⟨str "centos",str "hyperv",str "3.10.0",[]⟩
  have hr : (centosKernel numeral957).release ≠ [] := List.cons_ne_nil _ _
  have hmin : c.kernelMinVer = (centosKernel numeral957).baseOnly.text := by decide
  have hhost := centos_host (centosKernel numeral957) (by decide) ⟨[],[],[]⟩
  obtain ⟨ver,hver,hs⟩ := (h _ _ _ c (str "centos") rfl hr).1 hhost ⟨rfl,hmin,rfl⟩
  rw [host_version hhost] at hver
  cases hver
  rw [minOnly_satisfied (rfl : c.os = str "centos") hmin rfl (base_cmp hr).1] at hs
  simp at hs

end VersionInfo
