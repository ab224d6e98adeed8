import KvmInfo.VersionInfo.Check
import KvmInfo.VersionInfo.OsRelease

namespace VersionInfo
open Go GoVersion OsRelease

structure Config where
  osRelease : Str
  kernVersion : Str
  checks : List Check
  deriving DecidableEq, Repr

structure Env where
  readFile : Str → Except Str Str
  decode : Str → Except Str Config

def readConfig (env : Env) (confPath : Str) : Except Str Config :=
  match env.readFile confPath with
  | .error err => .error err
  | .ok fh => env.decode fh

def defaultKernelVersion : Str := str "/proc/version"

def osReleaseOf (env : Env) (conf : Config) : Eval (Except Str Table) :=
  if conf.osRelease ≠ [] then OsRelease.readFile env.readFile conf.osRelease
  else OsRelease.read env.readFile

def procVersion (conf : Config) : Str :=
  if conf.kernVersion ≠ [] then conf.kernVersion else defaultKernelVersion

def kernelVersion (env : Env) (conf : Config) : Eval (Except Str Version) :=
  match env.readFile (procVersion conf) with
  | .error err => .ok (.error err)
  | .ok versionData => do
      let items := split versionData space
      readBound (← index items 2)

def features : List Str := [str "hyperv",str "hyperv-lev2"]

inductive Diagnostic where
  | invalid (check : Check)
  | failed (check : Check) (os : Str) (kernel : Version) (err : Str)
  | unfulfilled (check : Check) (os : Str) (kernel : Version)
  deriving DecidableEq, Repr

structure Report where
  detected : List Str
  log : List Diagnostic
  deriving DecidableEq, Repr

def Report.note (report : Report) (d : Diagnostic) : Report :=
  { report with log := report.log ++ [d] }

def Report.detect (report : Report) (feature : Str) : Report :=
  { report with detected := report.detected ++ [feature] }

def checkLoop (os : Str) (kernelver : Version) : List Check → Report → Eval Report
  | [], report => .ok report
  | check :: checks, report =>
      if !check.isValid features then checkLoop os kernelver checks (report.note (.invalid check))
      else do
        match ← check.isSatisfied os kernelver with
        | (_,some err) => checkLoop os kernelver checks (report.note (.failed check os kernelver err))
        | (false,none) => checkLoop os kernelver checks (report.note (.unfulfilled check os kernelver))
        | (true,none) => checkLoop os kernelver checks (report.detect check.feature)

def idKey : Str := str "ID"

def run (env : Env) (confPath : Str) : Eval (Report × Option Str) :=
  match readConfig env confPath with
  | .error err => .ok (⟨[],[]⟩,some err)
  | .ok conf => do
      match ← osReleaseOf env conf with
      | .error err => return (⟨[],[]⟩,some err)
      | .ok osrelease =>
          match ← kernelVersion env conf with
          | .error err => return (⟨[],[]⟩,some err)
          | .ok kernelver =>
              return (← checkLoop (osrelease.get idKey) kernelver conf.checks ⟨[],[]⟩,none)

theorem osReleaseOf_ok (env : Env) (conf : Config) : ∃ r, osReleaseOf env conf = .ok r := by
  rw [osReleaseOf]
  split_ifs
  · exact OsRelease.readFile_ok _ _
  · exact OsRelease.read_ok _

theorem kernelVersion_short {env : Env} {conf : Config} {data : Str}
    (hread : env.readFile (procVersion conf) = .ok data) (h : data.count space < 2) :
    ∃ panic, kernelVersion env conf = .error panic := by
  have hlen := split_length data space
  have hindex := index_error (split data space) 2 (by omega)
  exact ⟨_,by simp only [kernelVersion,hread]; exact congrArg (· >>= readBound) hindex⟩

theorem kernelVersion_word {env : Env} {conf : Config} {data word : Str}
    (hread : env.readFile (procVersion conf) = .ok data) (h : (split data space)[2]? = some word) :
    kernelVersion env conf = readBound word := by
  obtain ⟨hlt,hword⟩ := List.getElem?_eq_some_iff.mp h
  have hindex := index_ok (split data space) 2 hlt
  rw [hword] at hindex
  simp only [kernelVersion,hread]
  exact congrArg (· >>= readBound) hindex

theorem kernelVersion_ok {env : Env} {conf : Config}
    (h : ∀ data, env.readFile (procVersion conf) = .ok data → 2 ≤ data.count space) :
    ∃ r, kernelVersion env conf = .ok r := by
  cases hread : env.readFile (procVersion conf) with
  | error err => exact ⟨_,by rw [kernelVersion,hread]⟩
  | ok data =>
    have hlen := split_length data space
    have hlt : 2 < (split data space).length := by have := h data hread; omega
    rw [kernelVersion_word hread (List.getElem?_eq_getElem hlt)]
    exact readBound_ok _

theorem checkLoop_ok (os : Str) (kernelver : Version) (checks : List Check) (report : Report) :
    ∃ r, checkLoop os kernelver checks report = .ok r := by
  induction checks generalizing report with
  | nil => exact ⟨_,rfl⟩
  | cons check checks ih =>
    rw [checkLoop]
    cases check.isValid features with
    | false => exact ih _
    | true =>
      obtain ⟨⟨ok,err⟩,hr⟩ := isSatisfied_ok check os kernelver
      simp only [hr,bind,Except.bind,Bool.not_true,Bool.false_eq_true,if_false]
      cases err with
      | some err => exact ih _
      | none => cases ok <;> exact ih _

def ShortVersionFile (env : Env) (confPath : Str) : Prop :=
  ∃ conf osrelease data, readConfig env confPath = .ok conf ∧
    osReleaseOf env conf = .ok (.ok osrelease) ∧
    env.readFile (procVersion conf) = .ok data ∧ data.count space < 2

theorem run_ok_iff (env : Env) (confPath : Str) :
    (∃ r, run env confPath = .ok r) ↔ ¬ShortVersionFile env confPath := by
  constructor
  · rintro ⟨r,hr⟩ ⟨conf,osrelease,data,hconf,hos,hread,hshort⟩
    obtain ⟨panic,hp⟩ := kernelVersion_short hread hshort
    simp [run,hconf,hos,hp,bind,Except.bind] at hr
  · intro h
    cases hconf : readConfig env confPath with
    | error err => exact ⟨_,by rw [run,hconf]⟩
    | ok conf =>
      obtain ⟨os,hos⟩ := osReleaseOf_ok env conf
      cases os with
      | error err => exact ⟨_,by simp only [run,hconf,hos,bind,Except.bind]; rfl⟩
      | ok osrelease =>
        obtain ⟨ver,hver⟩ : ∃ r, kernelVersion env conf = .ok r := by
          apply kernelVersion_ok
          intro data hread
          by_contra hshort
          exact h ⟨conf,osrelease,data,hconf,hos,hread,by omega⟩
        cases ver with
        | error err => exact ⟨_,by simp only [run,hconf,hos,hver,bind,Except.bind]; rfl⟩
        | ok ver =>
          obtain ⟨report,hr⟩ := checkLoop_ok (osrelease.get idKey) ver conf.checks ⟨[],[]⟩
          exact ⟨_,by simp only [run,hconf,hos,hver,hr,bind,Except.bind]; rfl⟩

def emptyFiles : Env where
  readFile path := if path = str "conf" then .ok (str "\x7b\x7d") else .ok []
  decode data := if data = str "\x7b\x7d" then .ok ⟨[],[],[]⟩ else .error (str "EOF")

theorem run_emptyFiles : ¬∀ env confPath, ∃ r, run env confPath = .ok r := by
  intro h
  obtain ⟨r,hr⟩ := h emptyFiles (str "conf")
  have hpanic : run emptyFiles (str "conf") = .error (.index 2 1) := by decide
  simp [hpanic] at hr

end VersionInfo
