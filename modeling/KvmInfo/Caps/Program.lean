import KvmInfo.Caps.MockFile

namespace Caps
open Exec Toml

def slash : UInt8 := 0x2F

def basename (path : Bytes) : Bytes :=
  let trimmed := (path.reverse.dropWhile (· = slash)).reverse
  if path = [] then cstr "."
  else if trimmed = [] then [slash]
  else (trimmed.reverse.takeWhile (· ≠ slash)).reverse

def MISSING_EXE : Bytes := cstr "kvm-caps-missing-nfd-plugin"

def exeMode (exe : Bytes) : ℤ :=
  if basename exe = MISSING_EXE then KVM_INFO_SHOW_MISSING else KVM_INFO_SHOW_FEATURES

def devOf : List Bytes → Bytes
  | [_,dev] => dev
  | _ => cstr "/dev/kvm"

def main {W : Type} (io : Io W) (argv : List Bytes) : C W ℤ :=
  kvmStateScan io (devOf argv) (exeMode (argv.headD []))

def Machine.stdout {W : Type} (m : Machine W) : Bytes := m.emitted.flatten

-- `name` is what stands behind the last slash of a path, but for the slashes at its end.
def LastPart (path name : Bytes) : Prop :=
  name ≠ [] ∧ slash ∉ name ∧ ∃ (dir : Bytes) (n : ℕ),
    (dir = [] ∨ dir.getLast? = some slash) ∧ path = dir ++ name ++ List.replicate n slash

section names
variable {path name : Bytes}

theorem takeWhile_name {rest : Bytes} (hname : slash ∉ name)
    (hrest : rest = [] ∨ rest.head? = some slash) :
    ((name.reverse ++ rest).takeWhile (· ≠ slash)).reverse = name := by
  have hall : ∀ c ∈ name.reverse, decide (c ≠ slash) = true := by
    intro c hc
    rw [decide_eq_true_eq]
    rintro rfl
    exact hname (List.mem_reverse.mp hc)
  have hstop : rest.takeWhile (· ≠ slash) = [] := by
    rcases hrest with rfl | hhead
    · rfl
    · obtain ⟨tail,rfl⟩ := List.head?_eq_some_iff.mp hhead
      exact List.takeWhile_cons_of_neg (by simp)
  rw [List.takeWhile_append_of_pos hall,hstop,List.append_nil,List.reverse_reverse]

theorem dropWhile_slashes {rest : Bytes} (h : rest.head? ≠ some slash) (n : ℕ) :
    (List.replicate n slash ++ rest).dropWhile (· = slash) = rest := by
  have hslashes : ∀ c ∈ List.replicate n slash, decide (c = slash) = true :=
    fun c hc => decide_eq_true (List.eq_of_mem_replicate hc)
  rw [List.dropWhile_append_of_pos hslashes]
  exact List.dropWhile_beq_eq_self_of_head?_ne h

theorem basename_path (h : LastPart path name) : basename path = name := by
  obtain ⟨hne,hname,dir,n,hdir,rfl⟩ := h
  have hhead : (name.reverse ++ dir.reverse).head? ≠ some slash := by
    obtain ⟨c,rest,hc⟩ := List.exists_cons_of_ne_nil (mt List.reverse_eq_nil_iff.mp hne)
    rw [hc]
    rintro ⟨⟩
    exact hname (List.mem_reverse.mp (by rw [hc]; exact List.mem_cons_self))
  have hrev : (dir ++ name ++ List.replicate n slash).reverse =
      List.replicate n slash ++ (name.reverse ++ dir.reverse) := by simp
  have hdir' : dir.reverse = [] ∨ dir.reverse.head? = some slash := by
    rwa [List.reverse_eq_nil_iff,List.head?_reverse]
  rw [basename]
  simp only [hrev,dropWhile_slashes hhead,List.reverse_reverse]
  rw [if_neg (by simp [hne]),if_neg (by simp [hne]),takeWhile_name hname hdir']

theorem trailing_slashes (path : Bytes) :
    ∃ n, path = (path.reverse.dropWhile (· = slash)).reverse ++ List.replicate n slash := by
  have hslashes : path.reverse.takeWhile (· = slash) =
      List.replicate (path.reverse.takeWhile (· = slash)).length slash := by
    apply List.eq_replicate_of_mem
    intro c hc
    exact of_decide_eq_true (List.mem_takeWhile_imp (p := (· = slash)) hc)
  refine ⟨(path.reverse.takeWhile (· = slash)).length,?_⟩
  rw [← List.reverse_inj,List.reverse_append,List.reverse_reverse,List.reverse_replicate,← hslashes,
    List.takeWhile_append_dropWhile]

theorem dropWhile_head {p : UInt8 → Bool} {l : Bytes} :
    l.dropWhile p = [] ∨ ∃ c rest, l.dropWhile p = c :: rest ∧ p c = false := by
  have hhead := List.head?_dropWhile_not p l
  cases h : l.dropWhile p with
  | nil => exact Or.inl rfl
  | cons c rest =>
    rw [h] at hhead
    exact Or.inr ⟨c,rest,rfl,hhead⟩

theorem lastPart_basename (hdot : basename path ≠ cstr ".") (hslash : basename path ≠ [slash]) :
    LastPart path (basename path) := by
  obtain ⟨n,hpath⟩ := trailing_slashes path
  rw [basename] at hdot hslash ⊢
  split_ifs at hdot hslash ⊢ with h1 h2
  · exact absurd rfl hdot
  · exact absurd rfl hslash
  · generalize hrest : path.reverse.dropWhile (· = slash) = rest at hpath h2 ⊢
    rw [List.reverse_reverse]
    have hsplit : rest.takeWhile (· ≠ slash) ++ rest.dropWhile (· ≠ slash) = rest :=
      List.takeWhile_append_dropWhile
    refine ⟨?_,?_,(rest.dropWhile (· ≠ slash)).reverse,n,?_,?_⟩
    · rcases dropWhile_head (p := (· = slash)) (l := path.reverse) with hnil | ⟨c,tail,hcons,hc⟩
      · rw [hrest] at hnil
        exact absurd (congrArg List.reverse hnil) h2
      · rw [hrest] at hcons
        rw [hcons,List.takeWhile_cons_of_pos (by simpa using hc)]
        simp
    · intro hmem
      have hne := List.mem_takeWhile_imp (p := (· ≠ slash)) (List.mem_reverse.mp hmem)
      exact absurd rfl (of_decide_eq_true hne)
    · rw [List.reverse_eq_nil_iff,List.getLast?_reverse]
      rcases dropWhile_head (p := (· ≠ slash)) (l := rest) with hnil | ⟨c,tail,hcons,hc⟩
      · exact Or.inl hnil
      · right
        rw [hcons,List.head?_cons]
        simpa using hc
    · rw [← List.reverse_append,hsplit]
      exact hpath

theorem exeMode_missing (exe : Bytes) : exeMode exe = KVM_INFO_SHOW_MISSING ↔
    LastPart exe (cstr "kvm-caps-missing-nfd-plugin") := by
  have hmode : exeMode exe = KVM_INFO_SHOW_MISSING ↔ basename exe = MISSING_EXE := by
    rw [exeMode]
    split_ifs with h
    · simp [h]
    · simp [h,KVM_INFO_SHOW_FEATURES,KVM_INFO_SHOW_MISSING]
  rw [hmode]
  constructor
  · intro h
    have hpart : LastPart exe (basename exe) :=
      lastPart_basename (by rw [h]; decide) (by rw [h]; decide)
    rwa [h] at hpart
  · exact basename_path

theorem exeMode_features {exe : Bytes} (h : ¬LastPart exe (cstr "kvm-caps-missing-nfd-plugin")) :
    exeMode exe = KVM_INFO_SHOW_FEATURES := by
  rw [← exeMode_missing,exeMode] at h
  rw [exeMode]
  split_ifs at h ⊢ with hname
  · exact absurd rfl h
  · rfl

end names

section program
variable {strtod : Bytes → Bool} {fopen : Bytes → Option Bytes} {calloc : ℕ → Bool}
variable {doc : Entries} {ls : List Lexeme} {src file exe : Bytes} {exts msrs : List UInt32}

theorem main_toml (hdoc : doc.WellFormed strtod) (hnames : doc.names.Nodup)
    (hwrites : WritesFile doc ls) (hspells : Spells ls (cString src))
    (hexts : EntryLists (cstr "exts") doc exts) (hmsrs : EntryLists (cstr "msrs") doc msrs)
    (hextsLen : exts.length < 2 ^ 31) (hmsrsLen : msrs.length < 2 ^ 31)
    (hopen : fopen file = some src) (hcalloc : ∀ n, calloc n = true) {m : Fake}
    (hfree : 0 ≤ findFirstFree m.world) :
    ∃ m', Runs (main (tomlMock strtod fopen calloc).io [exe,file]) m 0 m' ∧
      (LastPart exe (cstr "kvm-caps-missing-nfd-plugin") →
        m'.stdout = m.stdout ++ (labels msrs (grantedOf exts) KVM_INFO_SHOW_MISSING).flatten) ∧
      (¬LastPart exe (cstr "kvm-caps-missing-nfd-plugin") →
        m'.stdout = m.stdout ++ (labels msrs (grantedOf exts) KVM_INFO_SHOW_FEATURES).flatten) := by
  have hprovides := tomlMock_provides hdoc hnames hwrites hspells hexts hmsrs hopen hcalloc
  obtain ⟨m',hrun,hem⟩ : ∃ m', Runs (main (tomlMock strtod fopen calloc).io [exe,file]) m 0 m' ∧
      m'.emitted = m.emitted ++ labels msrs (grantedOf exts) (exeMode exe) :=
    mock_provides_scan hprovides hextsLen hmsrsLen hfree
  have hstdout : m'.stdout = m.stdout ++ (labels msrs (grantedOf exts) (exeMode exe)).flatten := by
    rw [Machine.stdout,hem,List.flatten_append]
    rfl
  refine ⟨m',hrun,fun hmissing => ?_,fun hother => ?_⟩
  · rw [hstdout,(exeMode_missing exe).mpr hmissing]
  · rw [hstdout,exeMode_features hother]

end program

section witness

def oneLine (key value comment : Bytes) : List (Bytes × Lexeme) :=
  [([],.str key),([space],.equal),([space],.lbracket),([],.newline),([Toml.tab],.str value),
    ([],.comma),(comment,.newline),([],.rbracket),([],.newline)]

def resetLayout : List (Bytes × Lexeme) :=
  oneLine (cstr "exts") (cstr "44") (cstr "  # KVM_CAP_HYPERV") ++
    oneLine (cstr "msrs") (cstr "1073741827") (cstr " # HV_X64_MSR_RESET")

def resetDoc : Entries :=
  .cons (cstr "exts") (.array (.cons (.raw (cstr "44")) .nil))
    (.cons (cstr "msrs") (.array (.cons (.raw (cstr "1073741827")) .nil)) .nil)

theorem resetDoc_writes : WritesFile resetDoc (resetLayout.map Prod.snd) :=
  .cons 0 ⟨by decide,by decide⟩ (.array 1 (.cons 0 1 (.raw _) .nil))
    (.cons 0 ⟨by decide,by decide⟩ (.array 1 (.cons 0 1 (.raw _) .nil)) (.nil 0))

theorem resetDoc_wellFormed : resetDoc.WellFormed digitsOnly :=
  ⟨⟨⟨(.value,some .int),⟨by decide,trivial⟩⟩,⟨trivial,trivial⟩⟩,
    ⟨⟨(.value,some .int),⟨by decide,trivial⟩⟩,⟨trivial,trivial⟩⟩,trivial⟩

theorem resetLayout_spells :
    Spells (resetLayout.map Prod.snd) (cString (layOut [] resetLayout)) := by
  have hplain : cString (layOut [] resetLayout) = layOut [] resetLayout := by decide +kernel
  rw [hplain]
  exact spells_layOut (by decide +kernel)

theorem resetDoc_exts : EntryLists (cstr "exts") resetDoc [KVM_CAP_HYPERV] := by
  rw [resetDoc,EntryLists,if_pos rfl]
  exact ⟨_,rfl,by decide,trivial⟩

theorem resetDoc_msrs : EntryLists (cstr "msrs") resetDoc [HV_X64_MSR_RESET] := by
  rw [resetDoc,EntryLists,if_neg (by decide),EntryLists,if_pos rfl]
  exact ⟨_,rfl,by decide,trivial⟩

def missingExe : Bytes := cstr "/usr/bin/kvm-caps-missing-nfd-plugin"

theorem missing_lastPart : LastPart missingExe (cstr "kvm-caps-missing-nfd-plugin") :=
  ⟨by decide,by decide,cstr "/usr/bin/",0,Or.inr (by decide),by decide⟩

theorem main_toml_reset :
    ∃ m', Runs (main (tomlMock digitsOnly (fun _ => some (layOut [] resetLayout))
        (fun _ => true)).io [missingExe,cstr "kvm.toml"]) emptyFake 0 m' ∧
      m'.stdout = (labels [HV_X64_MSR_RESET] (grantedOf [KVM_CAP_HYPERV])
        KVM_INFO_SHOW_MISSING).flatten := by
  have hnames : resetDoc.names.Nodup := by decide
  have hfree : 0 ≤ findFirstFree emptyFake.world := by decide
  have hmain : ∃ m', Runs (main (tomlMock digitsOnly (fun _ => some (layOut [] resetLayout))
        (fun _ => true)).io [missingExe,cstr "kvm.toml"]) emptyFake 0 m' ∧
      (LastPart missingExe (cstr "kvm-caps-missing-nfd-plugin") →
        m'.stdout = emptyFake.stdout ++ (labels [HV_X64_MSR_RESET] (grantedOf [KVM_CAP_HYPERV])
          KVM_INFO_SHOW_MISSING).flatten) ∧
      (¬LastPart missingExe (cstr "kvm-caps-missing-nfd-plugin") →
        m'.stdout = emptyFake.stdout ++ (labels [HV_X64_MSR_RESET] (grantedOf [KVM_CAP_HYPERV])
          KVM_INFO_SHOW_FEATURES).flatten) := by
    refine main_toml resetDoc_wellFormed hnames resetDoc_writes resetLayout_spells resetDoc_exts
      resetDoc_msrs ?_ ?_ ?_ ?_ hfree
    · decide
    · decide
    · rfl
    · exact fun _ => rfl
  obtain ⟨m',hrun,hmissing,-⟩ := hmain
  exact ⟨m',hrun,hmissing missing_lastPart⟩

end witness

end Caps
