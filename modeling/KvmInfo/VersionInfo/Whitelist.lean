import KvmInfo.VersionInfo.Run

namespace VersionInfo
open Go GoVersion OsRelease

def boundOk (fails : ℤ → Bool) (bound : Str) (ver : Version) : Bool :=
  bound.isEmpty ||
    match readBound bound with
    | .ok (.ok boundVer) =>
        match ver.compare boundVer with
        | .ok compare => !fails compare
        | .error _ => false
    | _ => false

theorem boundOk_iff (fails : ℤ → Bool) (bound : Str) (ver : Version) :
    boundOk fails bound ver = true ↔ BoundHolds fails bound ver := by
  obtain ⟨r,hr⟩ := readBound_ok bound
  cases r with
  | error err => simp [boundOk,BoundHolds,hr]
  | ok boundVer =>
    obtain ⟨c,hc⟩ := compare_ok ver boundVer
    simp [boundOk,BoundHolds,hr,hc]

instance (fails : ℤ → Bool) (bound : Str) (ver : Version) : Decidable (BoundHolds fails bound ver) :=
  decidable_of_iff _ (boundOk_iff fails bound ver)

def Check.Whitelisted (c : Check) (os : Str) (ver : Version) : Prop :=
  c.feature ∈ features ∧ c.os ≠ [] ∧ c.os = os ∧ (c.kernelMinVer ≠ [] ∨ c.kernelMaxVer ≠ []) ∧
    BoundHolds (fun compare => compare < 0) c.kernelMinVer ver ∧
    BoundHolds (fun compare => compare > 0) c.kernelMaxVer ver

instance (c : Check) (os : Str) (ver : Version) : Decidable (c.Whitelisted os ver) := by
  unfold Check.Whitelisted
  infer_instance

def whitelist (os : Str) (ver : Version) (checks : List Check) : List Str :=
  (checks.filter (fun c => c.Whitelisted os ver)).map Check.feature

def Malformed (bound : Str) : Prop := bound ≠ [] ∧ ∃ err, readBound bound = .ok (.error err)

def Check.Skipped (c : Check) (os : Str) : Prop :=
  c.isValid features = false ∨ c.os ≠ os ∨ Malformed c.kernelMinVer ∨ Malformed c.kernelMaxVer

theorem features_ne_nil : [] ∉ features := by decide

theorem whitelisted_iff (c : Check) (os : Str) (ver : Version) :
    c.Whitelisted os ver ↔ c.isValid features = true ∧ c.Holds os ver := by
  have hne : c.feature ∈ features → c.feature ≠ [] := fun h he => features_ne_nil (he ▸ h)
  rw [isValid_iff,Check.Whitelisted,Check.Holds]
  tauto

theorem malformed_not_holds {fails : ℤ → Bool} {bound : Str} {ver : Version} (h : Malformed bound) :
    ¬BoundHolds fails bound ver := by
  obtain ⟨hne,err,herr⟩ := h
  exact unreadable_not_holds ⟨hne,herr⟩

theorem skipped_not_whitelisted {c : Check} {os : Str} {ver : Version} (h : c.Skipped os) :
    ¬c.Whitelisted os ver := by
  rw [whitelisted_iff]
  rintro ⟨hvalid,hos,hmin,hmax⟩
  rcases h with h | h | h | h
  · simp [hvalid] at h
  · exact h hos
  · exact malformed_not_holds h hmin
  · exact malformed_not_holds h hmax

theorem whitelist_append (os : Str) (ver : Version) (xs ys : List Check) :
    whitelist os ver (xs ++ ys) = whitelist os ver xs ++ whitelist os ver ys := by
  simp [whitelist]

theorem whitelist_eq_nil {os : Str} {ver : Version} {checks : List Check}
    (h : ∀ c ∈ checks, ¬c.Whitelisted os ver) : whitelist os ver checks = [] := by
  have : checks.filter (fun c => c.Whitelisted os ver) = [] := by
    apply List.filter_eq_nil_iff.mpr
    intro c hc
    simpa using h c hc
  simp [whitelist,this]

theorem whitelist_skipped (os : Str) (ver : Version) (checks : List Check)
    (h : ∀ c ∈ checks, c.Skipped os) : whitelist os ver checks = [] :=
  whitelist_eq_nil (fun c hc => skipped_not_whitelisted (h c hc))

theorem whitelist_cons (os : Str) (ver : Version) (c : Check) (checks : List Check) :
    whitelist os ver (c :: checks) =
      (if c.Whitelisted os ver then [c.feature] else []) ++ whitelist os ver checks := by
  by_cases h : c.Whitelisted os ver <;> simp [whitelist,h]

theorem checkLoop_whitelist (os : Str) (ver : Version) (checks : List Check) (report : Report) :
    ∃ log, checkLoop os ver checks report =
      .ok ⟨report.detected ++ whitelist os ver checks,log⟩ := by
  induction checks generalizing report with
  | nil => exact ⟨report.log,by simp [checkLoop,whitelist]⟩
  | cons c checks ih =>
    rw [checkLoop,whitelist_cons]
    have hw := whitelisted_iff c os ver
    cases hvalid : c.isValid features with
    | false =>
      have hno : ¬c.Whitelisted os ver := fun h => by simp [hvalid] at hw; exact hw h
      simpa [hno,Report.note] using ih (report.note (.invalid c))
    | true =>
      rcases isSatisfied_cases c os ver with ⟨hs,hh⟩ | ⟨err,hs,hh⟩
      · have hyes : c.Whitelisted os ver := hw.mpr ⟨hvalid,hh⟩
        simpa [hs,hyes,bind,Except.bind,Report.detect] using ih (report.detect c.feature)
      · have hno : ¬c.Whitelisted os ver := fun h => hh (hw.mp h).2
        cases err with
        | none =>
          simpa [hs,hno,bind,Except.bind,Report.note] using ih (report.note (.unfulfilled c os ver))
        | some err =>
          simpa [hs,hno,bind,Except.bind,Report.note] using ih (report.note (.failed c os ver err))

theorem whitelist_features (os : Str) (ver : Version) (checks : List Check) :
    ∀ feature ∈ whitelist os ver checks, feature ∈ features := by
  intro feature h
  obtain ⟨c,hc,rfl⟩ := List.mem_map.mp h
  have hw := (List.mem_filter.mp hc).2
  exact (of_decide_eq_true hw).1

theorem whitelist_insert {os : Str} {ver : Version} {pre noise post : List Check}
    (h : ∀ c ∈ noise, c.Skipped os) :
    whitelist os ver (pre ++ noise ++ post) = whitelist os ver (pre ++ post) := by
  rw [whitelist_append,whitelist_append,whitelist_skipped os ver noise h,List.append_nil,
    whitelist_append]

theorem whitelist_without_id (ver : Version) (checks : List Check) :
    whitelist [] ver checks = [] := by
  apply whitelist_eq_nil
  rintro c - ⟨-,hne,he,-⟩
  exact hne he

structure Reads (env : Env) (confPath : Str) (conf : Config) (osrelease : Table) (ver : Version) :
    Prop where
  config : readConfig env confPath = .ok conf
  osRelease : osReleaseOf env conf = .ok (.ok osrelease)
  kernel : kernelVersion env conf = .ok (.ok ver)

def detected (env : Env) (confPath : Str) : Option (List Str) :=
  match run env confPath with
  | .ok (report,none) => some report.detected
  | _ => none

section reads
variable {env env' : Env} {confPath confPath' : Str} {conf conf' : Config} {osrelease : Table}
variable {ver : Version}

theorem Reads.detected (h : Reads env confPath conf osrelease ver) :
    detected env confPath = some (whitelist (osrelease.get idKey) ver conf.checks) := by
  obtain ⟨log,hlog⟩ := checkLoop_whitelist (osrelease.get idKey) ver conf.checks ⟨[],[]⟩
  simp [VersionInfo.detected,run,h.config,h.osRelease,h.kernel,hlog,bind,Except.bind,pure,Except.pure]

theorem detected_eq_some {xs : List Str} (h : VersionInfo.detected env confPath = some xs) :
    ∃ report, run env confPath = .ok (report,none) ∧ report.detected = xs := by
  rw [VersionInfo.detected] at h
  split at h
  · next report hr => exact ⟨report,hr,Option.some.inj h⟩
  · simp at h

theorem run_whitelist (h : Reads env confPath conf osrelease ver) :
    (∃ report, run env confPath = .ok (report,none) ∧
      report.detected = (conf.checks.filter
        (fun c => c.Whitelisted (osrelease.get idKey) ver)).map Check.feature) ∧
    (∀ (pre noise post : List Check) (env' : Env), conf.checks = pre ++ post →
      (∀ c ∈ noise, c.Skipped (osrelease.get idKey)) →
      Reads env' confPath { conf with checks := pre ++ noise ++ post } osrelease ver →
      detected env' confPath = detected env confPath) ∧
    (∀ c : Check, Malformed c.kernelMinVer ∨ Malformed c.kernelMaxVer →
      ¬c.Whitelisted (osrelease.get idKey) ver) ∧
    (osrelease.get idKey = [] → detected env confPath = some []) ∧
    (∀ (xs ys : List Check) (env₁ env₂ : Env), conf.checks = xs ++ ys →
      Reads env₁ confPath { conf with checks := xs } osrelease ver →
      Reads env₂ confPath { conf with checks := ys } osrelease ver →
      ∃ us vs, detected env₁ confPath = some us ∧ detected env₂ confPath = some vs ∧
        detected env confPath = some (us ++ vs)) ∧
    (∀ us, detected env confPath = some us → ∀ feature ∈ us, feature ∈ features) := by
  refine ⟨detected_eq_some h.detected,?_,?_,?_,?_,?_⟩
  · intro pre noise post env' hc hnoise h'
    rw [h'.detected,h.detected,hc,whitelist_insert hnoise]
  · intro c hc
    exact skipped_not_whitelisted (hc.elim (fun h => Or.inr (Or.inr (Or.inl h)))
      (fun h => Or.inr (Or.inr (Or.inr h))))
  · intro hid
    rw [h.detected,hid,whitelist_without_id]
  · intro xs ys env₁ env₂ hc h₁ h₂
    exact ⟨_,_,h₁.detected,h₂.detected,by rw [h.detected,hc,whitelist_append]⟩
  · intro us hus
    rw [h.detected] at hus
    exact Option.some.inj hus ▸ whitelist_features _ _ _

end reads

def sampleCheck : Check := ⟨str "centos",str "hyperv",str "3.10.0-957",[]⟩
def otherCheck : Check := ⟨str "fedora",str "hyperv",str "3.10.0-957",[]⟩
def malformedCheck : Check := ⟨str "centos",str "hyperv-lev2",[],str "el7"⟩
def laterCheck : Check := ⟨str "centos",str "hyperv-lev2",str "3.10.0-1127",[]⟩

def sampleConfig : Config where
  osRelease := str "os"
  kernVersion := str "proc"
  checks := [sampleCheck,otherCheck,malformedCheck,laterCheck]

def sampleFiles : Env where
  readFile path :=
    if path = str "os" then .ok (str "ID=centos")
    else .ok (str "Linux version 3.10.0-1062.el7 (gcc)")
  decode _ := .ok sampleConfig

def quietConfig : Config := { sampleConfig with checks := [sampleCheck,laterCheck] }

def quietFiles : Env := { sampleFiles with decode := fun _ => .ok quietConfig }

def sampleVersion : Version where
  metadata := []
  pre := str "1062"
  segments := [3,10,0]
  si := 3
  original := str "3.10.0-1062"

theorem sampleReads : Reads sampleFiles [] sampleConfig [(str "ID",str "centos")] sampleVersion where
  config := rfl
  osRelease := by decide
  kernel := by decide

theorem quietReads : Reads quietFiles [] quietConfig [(str "ID",str "centos")] sampleVersion where
  config := rfl
  osRelease := by decide
  kernel := by decide

theorem run_whitelist_sample :
    (∃ report, run sampleFiles [] = .ok (report,none) ∧ report.detected = [str "hyperv"]) ∧
      detected sampleFiles [] = detected quietFiles [] ∧
      ¬malformedCheck.Whitelisted (str "centos") sampleVersion := by
  obtain ⟨⟨report,hrun,hdetected⟩,-⟩ := run_whitelist sampleReads
  obtain ⟨-,hinsert,hmalformed,-⟩ := run_whitelist quietReads
  have hbad : Malformed malformedCheck.kernelMaxVer :=
    ⟨by decide,str "Malformed version: ",by decide +kernel⟩
  have hskipped : ∀ c ∈ [otherCheck,malformedCheck], c.Skipped (str "centos") := by
    simp only [List.mem_cons,List.not_mem_nil,or_false,forall_eq_or_imp,forall_eq]
    exact ⟨Or.inr (Or.inl (by decide)),Or.inr (Or.inr (Or.inr hbad))⟩
  refine ⟨⟨report,hrun,?_⟩,?_,hmalformed malformedCheck (Or.inr hbad)⟩
  · rw [hdetected]
    decide +kernel
  · exact hinsert [sampleCheck] [otherCheck,malformedCheck] [laterCheck] sampleFiles rfl hskipped
      sampleReads

end VersionInfo
