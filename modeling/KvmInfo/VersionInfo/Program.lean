import KvmInfo.VersionInfo.Kernel
import KvmInfo.VersionInfo.OsReleaseFormat
import KvmInfo.VersionInfo.Whitelist

namespace VersionInfo
open Go GoVersion PaddedLex OsRelease

def ConfigFilePath : Str :=
  str "/etc/kubernetes/node-feature-discovery/source.d/conf/kvm-version-info.json"

inductive Request where
  | usage (exe : Str)
  | config (confFilePath : Str)
  deriving DecidableEq, Repr

def parseArgs : List Str → Request
  | [exe,arg] =>
      if arg = str "-h" ∨ arg = str "--help" ∨ arg = str "help" then .usage exe else .config arg
  | _ => .config ConfigFilePath

inductive Message where
  | usage (exe defaultPath : Str)
  | diagnostic (d : Diagnostic)
  | failure (err : Str)
  deriving DecidableEq, Repr

structure Outcome where
  code : ℕ
  stdout : Str
  stderr : List Message
  deriving DecidableEq, Repr

def featureLine (feature : Str) : Str := str "/kvm-info-version-" ++ feature ++ [newline]

def main (env : Env) (args : List Str) : Eval Outcome :=
  match parseArgs args with
  | .usage exe => .ok ⟨0,[],[.usage exe ConfigFilePath]⟩
  | .config confFilePath => do
      let (report,err) ← run env confFilePath
      match err with
      | some err => return ⟨1,[],report.log.map .diagnostic ++ [.failure err]⟩
      | none => return ⟨0,report.detected.flatMap featureLine,report.log.map .diagnostic⟩

def Check.complaint (os : Str) (ver : Version) (c : Check) : Option Diagnostic :=
  if c.isValid features = false then some (.invalid c)
  else
    match c.isSatisfied os ver with
    | .ok (false,none) => some (.unfulfilled c os ver)
    | .ok (_,some err) => some (.failed c os ver err)
    | _ => none

section loop
variable {os : Str} {ver : Version} {c : Check}

theorem complaint_invalid (h : c.isValid features = false) :
    c.complaint os ver = some (.invalid c) :=
  if_pos h

theorem complaint_valid (os : Str) (ver : Version) (h : c.isValid features = true) :
    (c.isSatisfied os ver = .ok (true,none) → c.complaint os ver = none) ∧
      (c.isSatisfied os ver = .ok (false,none) → c.complaint os ver = some (.unfulfilled c os ver)) ∧
      ∀ err, c.isSatisfied os ver = .ok (false,some err) →
        c.complaint os ver = some (.failed c os ver err) := by
  have hno : ¬c.isValid features = false := by rw [h]; decide
  rw [Check.complaint,if_neg hno]
  refine ⟨fun hs => ?_,fun hs => ?_,fun err hs => ?_⟩ <;> rw [hs]

theorem checkLoop_report (os : Str) (ver : Version) (checks : List Check) (report : Report) :
    checkLoop os ver checks report =
      .ok ⟨report.detected ++ whitelist os ver checks,
        report.log ++ checks.filterMap (Check.complaint os ver)⟩ := by
  induction checks generalizing report with
  | nil => simp [checkLoop,whitelist]
  | cons c checks ih =>
    rw [checkLoop,whitelist_cons]
    have hw := whitelisted_iff c os ver
    cases hvalid : c.isValid features with
    | false =>
      have hno : ¬c.Whitelisted os ver := fun h => by simp [hvalid] at hw; exact hw h
      simp [hno,Report.note,ih,complaint_invalid hvalid]
    | true =>
      obtain ⟨hmet,hunmet,hfailed⟩ := complaint_valid os ver hvalid
      rcases isSatisfied_cases c os ver with ⟨hs,hh⟩ | ⟨err,hs,hh⟩
      · have hyes : c.Whitelisted os ver := hw.mpr ⟨hvalid,hh⟩
        simp [hs,hyes,bind,Except.bind,Report.detect,ih,hmet hs]
      · have hno : ¬c.Whitelisted os ver := fun h => hh (hw.mp h).2
        cases err with
        | none => simp [hs,hno,bind,Except.bind,Report.note,ih,hunmet hs]
        | some err => simp [hs,hno,bind,Except.bind,Report.note,ih,hfailed err hs]

theorem complaint_none_iff : c.complaint os ver = none ↔ c.Whitelisted os ver := by
  rw [whitelisted_iff]
  cases hvalid : c.isValid features with
  | false => simp [complaint_invalid hvalid]
  | true =>
    obtain ⟨hmet,hunmet,hfailed⟩ := complaint_valid os ver hvalid
    rcases isSatisfied_cases c os ver with ⟨hs,hh⟩ | ⟨err,hs,hh⟩
    · exact iff_of_true (hmet hs) ⟨rfl,hh⟩
    · refine iff_of_false ?_ fun h => hh h.2
      cases err with
      | none => simp [hunmet hs]
      | some err => simp [hfailed err hs]

end loop

def Known (feature : Str) : Prop := feature = str "hyperv" ∨ feature = str "hyperv-lev2"

def Check.Proper (c : Check) : Prop :=
  Known c.feature ∧ c.os ≠ [] ∧ (c.kernelMinVer ≠ [] ∨ c.kernelMaxVer ≠ [])

def Diagnostic.Justified (os : Str) (ver : Version) : Diagnostic → Prop
  | .invalid c => ¬c.Proper
  | .failed c os' ver' err => c.Proper ∧ os' = os ∧ ver' = ver ∧ c.Failed os ver err
  | .unfulfilled c os' ver' => c.Proper ∧ os' = os ∧ ver' = ver ∧ c.Unfulfilled os ver

def Diagnostic.check : Diagnostic → Check
  | .invalid c => c
  | .failed c _ _ _ => c
  | .unfulfilled c _ _ => c

section accounts
variable {os : Str} {ver : Version}

theorem known_iff {feature : Str} : Known feature ↔ feature ∈ features := by
  rw [features,List.mem_cons,List.mem_singleton,Known]

theorem isValid_proper {c : Check} : c.isValid features = true ↔ c.Proper := by
  have hne : c.feature ∈ features → c.feature ≠ [] := fun h he => features_ne_nil (he ▸ h)
  rw [isValid_iff,Check.Proper,known_iff]
  tauto

theorem complaint_justified {c : Check} {d : Diagnostic} (h : c.complaint os ver = some d) :
    d.check = c ∧ d.Justified os ver := by
  cases hvalid : c.isValid features with
  | false =>
    rw [complaint_invalid hvalid] at h
    cases h
    exact ⟨rfl,fun hproper => by simp [isValid_proper.mpr hproper] at hvalid⟩
  | true =>
    have hproper := isValid_proper.mp hvalid
    obtain ⟨hmet,hunmet,hfailed⟩ := complaint_valid os ver hvalid
    rcases isSatisfied_verdict c os ver with ⟨hs,-⟩ | ⟨hs,hh⟩ | ⟨err,hs,hh⟩
    · rw [hmet hs] at h
      cases h
    · rw [hunmet hs] at h
      cases h
      exact ⟨rfl,hproper,rfl,rfl,hh⟩
    · rw [hfailed err hs] at h
      cases h
      exact ⟨rfl,hproper,rfl,rfl,hh⟩

theorem justified_unique {d d' : Diagnostic} (h : d.Justified os ver) (h' : d'.Justified os ver)
    (hcheck : d.check = d'.check) : d = d' := by
  cases d with
  | invalid c =>
    cases d' with
    | invalid c' => exact congrArg Diagnostic.invalid hcheck
    | failed c' os' ver' err =>
      obtain rfl : c = c' := hcheck
      exact absurd h'.1 h
    | unfulfilled c' os' ver' =>
      obtain rfl : c = c' := hcheck
      exact absurd h'.1 h
  | failed c os₁ ver₁ err =>
    obtain ⟨hproper,rfl,rfl,hfailed⟩ := h
    cases d' with
    | invalid c' =>
      obtain rfl : c = c' := hcheck
      exact absurd hproper h'
    | failed c' os₂ ver₂ err' =>
      obtain rfl : c = c' := hcheck
      obtain ⟨-,rfl,rfl,hfailed'⟩ := h'
      rw [failed_unique hfailed hfailed']
    | unfulfilled c' os₂ ver₂ =>
      obtain rfl : c = c' := hcheck
      exact absurd h'.2.2.2 (failed_not_unfulfilled hfailed)
  | unfulfilled c os₁ ver₁ =>
    obtain ⟨hproper,rfl,rfl,hunfulfilled⟩ := h
    cases d' with
    | invalid c' =>
      obtain rfl : c = c' := hcheck
      exact absurd hproper h'
    | failed c' os₂ ver₂ err =>
      obtain rfl : c = c' := hcheck
      exact absurd hunfulfilled (failed_not_unfulfilled h'.2.2.2)
    | unfulfilled c' os₂ ver₂ =>
      obtain rfl : c = c' := hcheck
      obtain ⟨-,rfl,rfl,-⟩ := h'
      rfl

theorem complaints_checks (checks : List Check) :
    (checks.filterMap (Check.complaint os ver)).map Diagnostic.check =
      checks.filter fun c => ¬c.Whitelisted os ver := by
  induction checks with
  | nil => rfl
  | cons c checks ih =>
    cases h : c.complaint os ver with
    | none =>
      have hw := complaint_none_iff.mp h
      rw [List.filterMap_cons_none h,ih,List.filter_cons_of_neg (by simpa using hw)]
    | some d =>
      have hw : ¬c.Whitelisted os ver := by
        rw [← complaint_none_iff,h]
        simp
      rw [List.filterMap_cons_some h,List.map_cons,ih,List.filter_cons_of_pos (by simpa using hw),
        (complaint_justified h).1]

end accounts

structure Rule where
  os : Str
  feature : Str
  min : Option Kernel
  max : Option Kernel

def Rule.check (r : Rule) : Check := ⟨r.os,r.feature,boundText r.min,boundText r.max⟩

def Rule.Numbered (r : Rule) : Prop := (∀ k ∈ r.min, k.Numbered) ∧ ∀ k ∈ r.max, k.Numbered

def Rule.Valid (r : Rule) : Prop :=
  Known r.feature ∧ r.os ≠ [] ∧ (r.min.isSome ∨ r.max.isSome)

def Rule.Admits (r : Rule) (os : Str) (host : Kernel) : Prop :=
  r.os = os ∧ (∀ k ∈ r.min, k.key ≤ host.key) ∧ ∀ k ∈ r.max, host.key ≤ k.key

instance (feature : Str) : Decidable (Known feature) :=
  inferInstanceAs (Decidable (_ ∨ _))

instance (r : Rule) : Decidable r.Valid :=
  inferInstanceAs (Decidable (_ ∧ _ ∧ _))

instance (r : Rule) (os : Str) (host : Kernel) : Decidable (r.Admits os host) :=
  inferInstanceAs (Decidable (_ ∧ _ ∧ _))

def Rule.complaint (os : Str) (host : Kernel) (r : Rule) : Option Diagnostic :=
  if ¬r.Valid then some (.invalid r.check)
  else if r.Admits os host then none
  else some (.unfulfilled r.check os host.version)

section rules
variable {r : Rule} {os : Str} {host : Kernel}

theorem boundText_ne_nil (bound : Option Kernel) : boundText bound ≠ [] ↔ bound.isSome := by
  cases bound with
  | none => simp [boundText]
  | some k => simp [boundText,k.text_ne_nil]

theorem rule_valid (r : Rule) : r.check.isValid features = true ↔ r.Valid := by
  rw [isValid_proper,Check.Proper,Rule.check,Rule.Valid,boundText_ne_nil,boundText_ne_nil]

theorem boundBranch_kernel (fails : ℤ → Bool) {bound : Option Kernel} (hh : host.Numbered)
    (hb : ∀ k ∈ bound, k.Numbered) :
    boundBranch fails (boundText bound) host.version =
      .ok (if ∀ k ∈ bound, fails (signCmp host.key k.key) = false then none
        else some (false,none)) := by
  cases bound with
  | none => simp [boundBranch,boundText,pure,Except.pure]
  | some k =>
    have hc := kernels_cmp hh (hb k rfl)
    cases hf : fails (signCmp host.key k.key) <;>
      simp [boundBranch,boundText,k.text_ne_nil,k.read,hc,hf,bind,Except.bind,pure,Except.pure]

theorem rule_branches (hh : host.Numbered) (hr : r.Numbered) :
    r.check.minBranch host.version =
        .ok (if ∀ k ∈ r.min, k.key ≤ host.key then none else some (false,none)) ∧
      r.check.maxBranch host.version =
        .ok (if ∀ k ∈ r.max, host.key ≤ k.key then none else some (false,none)) := by
  have hmin := boundBranch_kernel (fun compare => decide (compare < 0)) hh hr.1
  have hmax := boundBranch_kernel (fun compare => decide (compare > 0)) hh hr.2
  simp only [decide_eq_false_iff_not,not_lt,gt_iff_lt,signCmp_nonneg_iff,signCmp_nonpos_iff]
    at hmin hmax
  exact ⟨hmin,hmax⟩

theorem rule_satisfied (os : Str) (hh : host.Numbered) (hr : r.Numbered) :
    r.check.isSatisfied os host.version = .ok (decide (r.Admits os host),none) := by
  obtain ⟨hmin,hmax⟩ := rule_branches hh hr
  by_cases hos : r.os = os
  · have heq : ¬r.check.os ≠ os := not_not.mpr hos
    rw [Check.isSatisfied,if_neg heq,hmin,hmax]
    by_cases h1 : ∀ k ∈ r.min, k.key ≤ host.key
    · rw [if_pos h1]
      by_cases h2 : ∀ k ∈ r.max, host.key ≤ k.key
      · rw [if_pos h2,decide_eq_true (show r.Admits os host from ⟨hos,h1,h2⟩)]
        rfl
      · rw [if_neg h2,decide_eq_false (show ¬r.Admits os host from fun h => h2 h.2.2)]
        rfl
    · rw [if_neg h1,decide_eq_false (show ¬r.Admits os host from fun h => h1 h.2.1)]
      rfl
  · have hne : r.check.os ≠ os := hos
    rw [Check.isSatisfied,if_pos hne,decide_eq_false (show ¬r.Admits os host from fun h => hos h.1)]
    rfl

theorem rule_complaint (hh : host.Numbered) (hr : r.Numbered) :
    r.check.complaint os host.version = r.complaint os host := by
  have hs := rule_satisfied os hh hr
  rw [Rule.complaint]
  cases hvalid : r.check.isValid features with
  | false =>
    have hno : ¬r.Valid := fun h => by simp [(rule_valid r).mpr h] at hvalid
    rw [complaint_invalid hvalid,if_pos hno]
  | true =>
    obtain ⟨hmet,hunmet,-⟩ := complaint_valid os host.version hvalid
    rw [if_neg (not_not.mpr ((rule_valid r).mp hvalid))]
    split_ifs with hadmits
    · rw [decide_eq_true hadmits] at hs
      exact hmet hs
    · rw [decide_eq_false hadmits] at hs
      exact hunmet hs

theorem rule_whitelisted (hh : host.Numbered) (hr : r.Numbered) :
    r.check.Whitelisted os host.version ↔ r.Valid ∧ r.Admits os host := by
  rw [whitelisted_iff,rule_valid,← isSatisfied_true_iff,rule_satisfied os hh hr]
  simp

end rules

section program
variable {env : Env} {conf : Config} {rules : List Rule} {ls : List Line} {host : Kernel}

def osReleasePath (conf : Config) : Str :=
  if conf.osRelease ≠ [] then conf.osRelease else etcOsRelease

theorem osReleaseOf_lines (hread : ∀ l ∈ ls, l.Readable) (hfits : ∀ l ∈ ls, l.Fits)
    (hfile : env.readFile (osReleasePath conf) = .ok (fileText ls)) :
    osReleaseOf env conf = .ok (.ok (ls.filterMap Line.assigned).reverse) := by
  rw [osReleasePath] at hfile
  rw [osReleaseOf]
  split_ifs at hfile ⊢ with hpath
  · exact readFile_lines hread hfits hfile
  · rw [OsRelease.read,readFile_lines hread hfits hfile]
    rfl

theorem rules_whitelist {os : Str} (hh : host.Numbered) (hr : ∀ r ∈ rules, r.Numbered) :
    whitelist os host.version (rules.map Rule.check) =
      (rules.filter fun r => r.Valid ∧ r.Admits os host).map Rule.feature := by
  rw [whitelist,List.filter_map,List.map_map]
  have hfilter : rules.filter ((fun c => decide (c.Whitelisted os host.version)) ∘ Rule.check) =
      rules.filter fun r => decide (r.Valid ∧ r.Admits os host) := by
    refine List.filter_congr fun r hmem => ?_
    exact decide_eq_decide.mpr (rule_whitelisted hh (hr r hmem))
  rw [hfilter]
  rfl

theorem rules_complaints {os : Str} (hh : host.Numbered) (hr : ∀ r ∈ rules, r.Numbered) :
    (rules.map Rule.check).filterMap (Check.complaint os host.version) =
      rules.filterMap (Rule.complaint os host) := by
  rw [List.filterMap_map]
  exact List.filterMap_congr fun r hmem => rule_complaint hh (hr r hmem)

theorem run_report {osrelease : Table} {ver : Version} {confPath : Str}
    (h : Reads env confPath conf osrelease ver) :
    run env confPath = .ok (⟨whitelist (osrelease.get idKey) ver conf.checks,
      conf.checks.filterMap (Check.complaint (osrelease.get idKey) ver)⟩,none) := by
  have hloop := checkLoop_report (osrelease.get idKey) ver conf.checks ⟨[],[]⟩
  simp [run,h.config,h.osRelease,h.kernel,hloop,bind,Except.bind,pure,Except.pure]

theorem main_rules {args : List Str} {confPath : Str} (hargs : parseArgs args = .config confPath)
    (hconf : readConfig env confPath = .ok conf) (hrules : conf.checks = rules.map Rule.check)
    (hr : ∀ r ∈ rules, r.Numbered) (hread : ∀ l ∈ ls, l.Readable) (hfits : ∀ l ∈ ls, l.Fits)
    (hfile : env.readFile (osReleasePath conf) = .ok (fileText ls))
    (hhost : Host env conf host.text) (hh : host.Numbered) :
    main env args = .ok
      ⟨0,(rules.filter fun r =>
          r.Valid ∧ r.Admits ((lastAssigned idKey ls).getD []) host).flatMap
            fun r => str "/kvm-info-version-" ++ r.feature ++ str "\n",
        (rules.filterMap (Rule.complaint ((lastAssigned idKey ls).getD []) host)).map
          .diagnostic⟩ := by
  have hos := osReleaseOf_lines hread hfits hfile
  have hid : Table.get (ls.filterMap Line.assigned).reverse idKey =
      (lastAssigned idKey ls).getD [] := by rw [Table.get,lookup_assigned]
  have hrun := run_report ⟨hconf,hos,host_version hhost⟩
  rw [hid,hrules,rules_whitelist hh hr,rules_complaints hh hr] at hrun
  have hline : (fun r : Rule => featureLine r.feature) =
      fun r => str "/kvm-info-version-" ++ r.feature ++ str "\n" := rfl
  rw [main,hargs]
  simp only [hrun,bind,Except.bind,pure,Except.pure,List.flatMap_map,hline]

theorem run_accounts {osrelease : Table} {ver : Version} {confPath : Str}
    (h : Reads env confPath conf osrelease ver) :
    ∃ report, run env confPath = .ok (report,none) ∧
      report.detected =
        (conf.checks.filter fun c => c.Whitelisted (osrelease.get idKey) ver).map Check.feature ∧
      report.log.map Diagnostic.check =
        conf.checks.filter (fun c => ¬c.Whitelisted (osrelease.get idKey) ver) ∧
      ∀ d ∈ report.log, d.Justified (osrelease.get idKey) ver ∧
        ∀ d' : Diagnostic, d'.check = d.check → d'.Justified (osrelease.get idKey) ver → d' = d := by
  refine ⟨_,run_report h,rfl,complaints_checks conf.checks,?_⟩
  intro d hd
  obtain ⟨c,-,hc⟩ := List.mem_filterMap.mp hd
  have hjustified := (complaint_justified hc).2
  exact ⟨hjustified,fun d' hcheck h' => justified_unique h' hjustified hcheck⟩

end program

section witness

theorem run_accounts_sample :
    ∃ report, run sampleFiles [] = .ok (report,none) ∧ report.detected = [str "hyperv"] ∧
      report.log.map Diagnostic.check = [otherCheck,malformedCheck,laterCheck] ∧
      ∀ d ∈ report.log, d.Justified (str "centos") sampleVersion := by
  obtain ⟨report,hrun,hdetected,hlog,hjustified⟩ := run_accounts sampleReads
  refine ⟨report,hrun,?_,?_,fun d hd => (hjustified d hd).1⟩
  · rw [hdetected]
    decide +kernel
  · rw [hlog]
    decide +kernel

def centosRules : List Rule :=
  [⟨str "centos",str "hyperv",some (centosKernel numeral957),none⟩,
    ⟨str "centos",str "hyperv-lev2",some (centosKernel numeral960),none⟩]

def centosLines : List Line :=
  [.assign 0 0 0 0 (str "NAME") (.quoted (str "CentOS Linux")),.other [],
    .assign 0 0 0 0 (str "ID") (.quoted (str "centos"))]

def centosProgram : Env where
  readFile path :=
    if path = etcOsRelease then .ok (fileText centosLines)
    else .ok (str "Linux version " ++ ((centosKernel numeral957).text ++ str " (mockbuild)"))
  decode _ := .ok ⟨[],[],centosRules.map Rule.check⟩

theorem centosRules_numbered : ∀ r ∈ centosRules, r.Numbered := by
  simp [centosRules,Rule.Numbered,centos_numbered957,centos_numbered960]

theorem main_rules_centos :
    main centosProgram [str "kvm-version-info-nfd-plugin"] = .ok
      ⟨0,str "/kvm-info-version-hyperv\n",
        [.diagnostic (.unfulfilled ⟨str "centos",str "hyperv-lev2",(centosKernel numeral960).text,[]⟩
          (str "centos") (centosKernel numeral957).version)]⟩ := by
  have hhost : Host centosProgram ⟨[],[],centosRules.map Rule.check⟩ (centosKernel numeral957).text :=
    ⟨_,rfl,third_word (by decide) (Or.inr rfl)⟩
  rw [main_rules rfl rfl rfl centosRules_numbered (by decide) (by decide) rfl hhost
    centos_numbered957]
  decide +kernel

end witness

end VersionInfo
