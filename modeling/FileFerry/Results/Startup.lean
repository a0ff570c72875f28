import FileFerry.Source.Boot

/-!
# Results — Startup

What a start of the program does, and what the health check says of it beforehand.

* `load_run`, `start_run`: the steps of a start, and how it ends.
* `doctor_predicts`: the check fails exactly where the configuration does not load, and otherwise
  prints what the start logs.
-/

namespace FileFerry
open Text Posix AsyncIo Steps

section Run

variable {crates : BootCrates} {l : Launch} {cfg : AppConfig} {h : Host}

/-- Loading takes one step, which logs where the configuration is read from. -/
theorem load_run (crates : BootCrates) (vars : Vars) (explicit : Option Path) (h : Host) :
    ∃ res, load crates vars explicit h =
      ([⟨h, [loadRecord (resolvePath vars h explicit)]⟩], res) := by
  rw [load, Act.get_bind, Act.emit_bind]
  rcases resolvePath vars h explicit with _ | path
  · exact ⟨_, rfl⟩
  · dsimp only
    rw [Act.ofExcept_run]
    exact ⟨_, rfl⟩

theorem logAll_run (rs : List Record) (h : Host) :
    logAll rs h = (rs.map fun r => ⟨h, [r]⟩, .ok ()) := by
  induction rs with
  | nil => rfl
  | cons r rs ih => rw [logAll, Act.emit_bind, ih, List.map_cons]

theorem trace_logged (rs : List Record) (h : Host) :
    trace (rs.map fun r => (⟨h, [r]⟩ : Step Host Record)) = rs := by
  rw [trace, List.flatMap_map]
  exact List.flatMap_singleton' rs

theorem after_logged (rs : List Record) (h : Host) :
    after h (rs.map fun r => (⟨h, [r]⟩ : Step Host Record)) = h :=
  after_of_forall (Q := fun g => g = h) rfl fun s hs => by
    obtain ⟨r, -, rfl⟩ := List.mem_map.mp hs
    rfl

/-- The log of a start, the data directory being there. -/
def startLog (l : Launch) (cfg : AppConfig) : List Record :=
  (s3Backend (offlineFromEnv l.vars) cfg.s3).2 ++ logPreflight cfg (.unspecified cfg.port)

/-- The service a start brings up. -/
def startedState (l : Launch) (cfg : AppConfig) (fs : FsBackend) : AppState :=
  ⟨⟨.fs fs, (s3Backend (offlineFromEnv l.vars) cfg.s3).1⟩, cfg⟩

/-- How a start ends, once its configuration is loaded. -/
inductive Starts (l : Launch) (cfg : AppConfig) (h : Host) :
    List (Step Host Record) × Except String Started → Prop where
  | rootless {e : IoError} : (FsBackend.new h cfg.fs).2 = .error e →
      Starts l cfg h ([⟨h, [startingRecord cfg]⟩, ⟨(FsBackend.new h cfg.fs).1, []⟩],
        .error ("initialising FS backend: " ++ e.display))
  | unbound {fs : FsBackend} {e : IoError} {steps : List (Step Host Record)} :
      (FsBackend.new h cfg.fs).2 = .ok fs → l.bindFault = some e →
      after h steps = (FsBackend.new h cfg.fs).1 →
      (∀ s ∈ steps, s.world = h ∨ s.world = (FsBackend.new h cfg.fs).1) →
        trace steps = startingRecord cfg :: startLog l cfg →
      Starts l cfg h (steps, .error e.display)
  | listening {fs : FsBackend} {steps : List (Step Host Record)} :
      (FsBackend.new h cfg.fs).2 = .ok fs → l.bindFault = none →
      after h steps = (FsBackend.new h cfg.fs).1 →
      (∀ s ∈ steps, s.world = h ∨ s.world = (FsBackend.new h cfg.fs).1) →
      trace steps = startingRecord cfg :: (startLog l cfg ++
        [listeningRecord (.unspecified cfg.port)]) →
      Starts l cfg h (steps, .ok ⟨startedState l cfg fs, .unspecified cfg.port⟩)

/-- **A start** ends in one of these ways. -/
theorem start_run (l : Launch) (cfg : AppConfig) (h : Host) : Starts l cfg h (start l cfg h) := by
  rw [start, Act.emit_bind, Act.get_bind]
  dsimp only
  rw [Act.step_bind]
  rcases hfs : (FsBackend.new h cfg.fs).2 with e | fs
  · rw [Except.mapError, Act.bind_error (Act.ofExcept_run _ _)]
    exact .rootless hfs
  · rw [Except.mapError, Act.bind_ok (Act.ofExcept_run _ _), after_nil,
      Act.bind_ok (logAll_run _ _), after_logged, Act.bind_ok (logAll_run _ _), after_logged]
    rcases hb : l.bindFault with _ | e
    · dsimp only
      rw [Act.emit_bind, Act.pure_run]
      refine .listening hfs hb ?_ (fun s hs => ?_) ?_
      · simp [after_logged]
      · simp only [List.mem_cons, List.mem_append, List.mem_map, List.not_mem_nil, or_false,
          false_or] at hs
        rcases hs with rfl | rfl | ⟨r, -, rfl⟩ | ⟨r, -, rfl⟩ | rfl <;> simp
      · simp [trace_logged, startLog]
    · refine .unbound hfs hb ?_ (fun s hs => ?_) ?_
      · simp [after_logged]
      · simp only [Act.fail_run, List.append_nil, List.nil_append, List.mem_cons, List.mem_append,
          List.mem_map] at hs
        rcases hs with rfl | rfl | ⟨r, -, rfl⟩ | ⟨r, -, rfl⟩ <;> simp
      · simp [trace_logged, startLog]

/-- Without the word `doctor` the program starts. -/
theorem main_start (crates : BootCrates) (l : Launch) (h : Host) (hd : "doctor" ∉ l.args) :
    main crates l h = ((tokioMain crates l h).1,
      match (tokioMain crates l h).2 with
      | .ok s => .serving s
      | .error m => .exited ⟨[], ["fatal: " ++ m], 1⟩) := by
  rcases hr : tokioMain crates l h with ⟨steps, r⟩
  have hr' : (tokioMain crates l).run h = (steps, r) := hr
  rw [main, if_neg hd, Proc.bind_run, hr']
  cases r with
  | ok s => simp
  | error m => simp

/-- A start whose configuration does not load ends there, and one whose configuration does goes
on. -/
theorem main_run (crates : BootCrates) (l : Launch) (h : Host) (hd : "doctor" ∉ l.args) :
    let explicit := parseConfigArg l.args
    let first : Step Host Record := ⟨h, [loadRecord (resolvePath l.vars h explicit)]⟩
    (∃ m, (load crates l.vars explicit h).2 = .error m ∧
      main crates l h = ([first], .exited ⟨[], ["fatal: " ++ m], 1⟩)) ∨
    ∃ cfg, (load crates l.vars explicit h).2 = .ok cfg ∧
      main crates l h = (first :: (start l cfg h).1,
        match (start l cfg h).2 with
        | .ok s => .serving s
        | .error m => .exited ⟨[], ["fatal: " ++ m], 1⟩) := by
  intro explicit first
  obtain ⟨res, hload⟩ := load_run crates l.vars explicit h
  rw [main_start crates l h hd, tokioMain]
  cases res with
  | error m =>
      rw [Act.bind_error hload]
      exact .inl ⟨m, by rw [hload], rfl⟩
  | ok cfg =>
      rw [Act.bind_ok hload]
      exact .inr ⟨cfg, by rw [hload], rfl⟩

end Run

/-! ### The health check -/

/-- The word `doctor`, where it is not the path of a bare `--config`, does not change which
configuration is read. -/
theorem configArg_insert {pre : List String} (post : List String)
    (hlast : pre.getLast? ≠ some "--config") :
    configArg (pre ++ "doctor" :: post) = configArg (pre ++ post) := by
  induction pre with
  | nil =>
      have hstrip : stripPrefix "--config=" "doctor" = none := by decide
      rw [List.nil_append, configArg, if_neg (by decide), hstrip]
      rfl
  | cons a pre ih =>
      rw [List.cons_append, List.cons_append, configArg, configArg]
      have hrest : pre.getLast? ≠ some "--config" ∧ (a = "--config" → pre ≠ []) := by
        cases pre with
        | nil => exact ⟨by simp, fun e => absurd (by rw [e]; rfl) hlast⟩
        | cons b pre => exact ⟨by rwa [List.getLast?_cons_cons] at hlast, fun _ => by simp⟩
      by_cases ha : a = "--config"
      · obtain ⟨b, pre, rfl⟩ := List.exists_cons_of_ne_nil (hrest.2 ha)
        rw [if_pos ha, if_pos ha]
        rfl
      · rw [if_neg ha, if_neg ha, ih hrest.1]

theorem parseConfigArg_insert {pre : List String} (post : List String) (hpre : pre ≠ [])
    (hlast : pre.getLast? ≠ some "--config") :
    parseConfigArg (pre ++ "doctor" :: post) = parseConfigArg (pre ++ post) := by
  obtain ⟨a, pre, rfl⟩ := List.exists_cons_of_ne_nil hpre
  refine configArg_insert post ?_
  cases pre with
  | nil => simp
  | cons b pre => rwa [List.getLast?_cons_cons] at hlast

/-- The lines of the preflight, of a log. -/
def preflightLog (l : List Record) : List Record :=
  l.filter fun r => r.target = "fileferry::boot_warnings"

theorem preflightLog_logPreflight (cfg : AppConfig) (addr : SocketAddr) :
    preflightLog (logPreflight cfg addr) = logPreflight cfg addr :=
  List.filter_eq_self.mpr fun r hr => by
    obtain ⟨w, -, rfl⟩ := List.mem_map.mp hr
    rfl

@[simp] theorem preflightLog_append (l m : List Record) :
    preflightLog (l ++ m) = preflightLog l ++ preflightLog m := List.filter_append l m

/-- The first lines of a start are not from there… -/
theorem preflightLog_first (cfg : AppConfig) (p : Option Path) (log : List Record) :
    preflightLog (loadRecord p :: startingRecord cfg :: log) = preflightLog log := by
  cases p <;> rfl

/-- …and of the others the preflight alone is. -/
theorem preflightLog_start (l : Launch) (cfg : AppConfig) (p : Option Path) :
    preflightLog (loadRecord p :: startingRecord cfg :: startLog l cfg)
      = logPreflight cfg (.unspecified cfg.port) := by
  have hs3 : preflightLog (s3Backend (offlineFromEnv l.vars) cfg.s3).2 = [] := by
    cases cfg.s3 <;> cases offlineFromEnv l.vars <;> rfl
  rw [preflightLog_first, startLog, preflightLog_append, hs3, preflightLog_logPreflight,
    List.nil_append]

/-- …to the last. -/
theorem preflightLog_listening (l : Launch) (cfg : AppConfig) (p : Option Path) :
    preflightLog (loadRecord p :: startingRecord cfg ::
      (startLog l cfg ++ [listeningRecord (.unspecified cfg.port)]))
        = logPreflight cfg (.unspecified cfg.port) := by
  rw [preflightLog_first, preflightLog_append, ← preflightLog_first cfg p, preflightLog_start]
  exact List.append_nil _

/-- The report on a configuration, and its exit code. -/
def report (cfg : AppConfig) : Exit :=
  ⟨reportLines cfg (.unspecified cfg.port), [],
    if preflight cfg (.unspecified cfg.port) = [] then 0 else 1⟩

/-- How the exit of the check and the start it was made for go together. -/
inductive Predicted (e : Exit) (boot : List (Step Host Record) × Outcome) : Prop where
  | unloaded {m : String} : e = ⟨[], ["doctor: config load failed: " ++ m], 2⟩ →
      boot.2 = .exited ⟨[], ["fatal: " ++ m], 1⟩ → (∀ cfg, startingRecord cfg ∉ trace boot.1) →
      Predicted e boot
  | rootless {cfg : AppConfig} {m : String} : e = report cfg → startingRecord cfg ∈ trace boot.1 →
      boot.2 = .exited ⟨[], ["fatal: initialising FS backend: " ++ m], 1⟩ →
        preflightLog (trace boot.1) = [] →
      Predicted e boot
  | unbound {cfg : AppConfig} {m : String} : e = report cfg → startingRecord cfg ∈ trace boot.1 →
      boot.2 = .exited ⟨[], ["fatal: " ++ m], 1⟩ →
      preflightLog (trace boot.1) = logPreflight cfg (.unspecified cfg.port) → Predicted e boot
  | listening {cfg : AppConfig} {s : Started} : e = report cfg → startingRecord cfg ∈ trace boot.1 →
      boot.2 = .serving s → s.state.config = cfg → s.addr = .unspecified cfg.port →
      preflightLog (trace boot.1) = logPreflight cfg (.unspecified cfg.port) → Predicted e boot

/-- **The health check predicts the start.**  With the word `doctor` among its arguments the program
changes nothing and logs nothing.  It exits with 2 where the start without the word does not load
its configuration, for the same reason; and otherwise its report and its exit code are those of the
configuration that is started, and of the warnings that are then logged. -/
theorem doctor_predicts (crates : BootCrates) (l : Launch) (pre post : List String) (h : Host)
    (hpre : pre ≠ []) (hlast : pre.getLast? ≠ some "--config") (hd : "doctor" ∉ pre ++ post)
    (hout : l.stdoutFault = none) :
    ∃ e, main crates { l with args := pre ++ "doctor" :: post } h = ([], .exited e) ∧
      Predicted e (main crates { l with args := pre ++ post } h) := by
  have hcheck : main crates { l with args := pre ++ "doctor" :: post } h
      = ([], .exited (doctor crates l (parseConfigArg (pre ++ post)) h)) := by
    rw [main, if_pos (by simp), ← parseConfigArg_insert post hpre hlast]
    rfl
  refine ⟨_, hcheck, ?_⟩
  rcases main_run crates { l with args := pre ++ post } h hd with ⟨m, hload, hmain⟩ |
    ⟨cfg, hload, hmain⟩
  · rw [hmain]
    refine .unloaded (m := m) ?_ rfl fun cfg hmem => ?_
    · rw [doctor, hload]
    · rw [trace_cons, trace_nil, List.append_nil, List.mem_singleton] at hmem
      have := congrArg Record.target hmem
      revert this
      cases resolvePath l.vars h (parseConfigArg (pre ++ post)) <;> simp [startingRecord,
        loadRecord]
  · have hreport : doctor crates l (parseConfigArg (pre ++ post)) h = report cfg := by
      rw [doctor, hload]
      dsimp only
      simp only [writeReport, hout, report]
      rcases preflight cfg (.unspecified cfg.port) with _ | ⟨w, ws⟩
      · rfl
      · rfl
    rw [hmain]
    have hstart := start_run { l with args := pre ++ post } cfg h
    generalize start { l with args := pre ++ post } cfg h = out at hstart
    cases hstart with
    | @rootless e he =>
        exact .rootless (m := e.display) hreport (by simp) rfl (preflightLog_first cfg _ [])
    | @unbound fs e steps hfs hb ha _ ht =>
        refine .unbound (m := e.display) hreport ?_ rfl ?_
        · rw [trace_cons, ht]
          simp
        · rw [trace_cons, ht]
          exact preflightLog_start ..
    | @listening fs steps hfs hb ha _ ht =>
        refine .listening hreport ?_ rfl rfl rfl ?_
        · rw [trace_cons, ht]
          simp
        · rw [trace_cons, ht]
          exact preflightLog_listening ..

/-- A document with a bucket, and a data root of its own. -/
def ferryYaml : AppConfigYaml where
  port := none
  documentationEnabled := none
  corsOrigin := none
  fs := some ⟨some (.ofBytes (bytes "data"))⟩
  s3 := some ⟨"eu-north-1", "", "objects", "", "KEY", "SECRET"⟩
  limits := none
  security := none

def ferryCrates : BootCrates := ⟨fun _ => .ok ferryYaml, id, Path.display⟩

def ferryLaunch : Launch where
  args := ["fileferry", "--config=ferry.yaml"]
  vars name := if name = "KEY" ∨ name = "SECRET" then some "1" else none
  stdoutFault := none
  bindFault := none

/-- A host with the document, and nothing else. -/
def ferryHost : Host := Host.put ⟨Tree.empty, [], 0⟩ (bytes "ferry.yaml") [] (.file ⟨[], 0⟩)

def ferryConfig : AppConfig :=
  { AppConfig.default with
    fs := ⟨.ofBytes (bytes "data")⟩
    s3 := some ⟨"eu-north-1", "", "objects", "", "1", "1"⟩ }

/-- Two warnings are foreseen. -/
theorem doctor_predicts_ferry : ∃ e,
    main ferryCrates { ferryLaunch with args := ["fileferry", "doctor",
      "--config=ferry.yaml"] } ferryHost
      = ([], .exited e) ∧
    e = report ferryConfig ∧ Predicted e (main ferryCrates ferryLaunch ferryHost) := by
  obtain ⟨e, hcheck, hpredicted⟩ := doctor_predicts ferryCrates ferryLaunch ["fileferry"]
    ["--config=ferry.yaml"] ferryHost (by decide) (by decide) (by decide) rfl
  have hreport : main ferryCrates
      { ferryLaunch with args := ["fileferry", "doctor", "--config=ferry.yaml"] } ferryHost
        = ([], .exited (report ferryConfig)) := rfl
  exact ⟨e, hcheck, by cases hcheck.symm.trans hreport; rfl, hpredicted⟩

end FileFerry
