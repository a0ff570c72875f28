import FileFerry.Source.Config

/-!
# Results — Boot

What a document resolves to.

* `Resolved`: what the configuration has to do with the document and the environment.
* `fromYaml_resolves`: a document that is accepted is resolved, and one that names a variable that
  is not set, or is empty, is refused.
-/

namespace FileFerry
open Text Posix

/-- The variable is set to the value, which is not empty. -/
def Resolves (vars : Vars) (name value : String) : Prop := vars name = some value ∧ value ≠ ""

/-- The bucket block, resolved. -/
structure S3Resolved (vars : Vars) (s : S3ConfigYaml) (c : S3Config) : Prop where
  accessKeyId : Resolves vars s.accessKeyIdEnv c.accessKeyId
  secretAccessKey : Resolves vars s.secretAccessKeyEnv c.secretAccessKey
  noTraversal : ¬ ['.', '.'] <:+: c.bucketPath.toList
  notRooted : c.bucketPath.toList.head? ≠ some '/'
  region : c.region = s.region
  endpointUrl : c.endpointUrl = s.endpointUrl
  bucket : c.bucket = s.bucket
  bucketPath : c.bucketPath = s.bucketPath

theorem s3FromYaml_ok {vars : Vars} {s : S3ConfigYaml} {s3 : Option S3Config}
    (h : s3FromYaml vars (some s) = .ok s3) : ∃ c, s3 = some c ∧ S3Resolved vars s c := by
  obtain ⟨k, hk, h⟩ := bind_ok h
  obtain ⟨k', hk', h⟩ := bind_ok h
  obtain ⟨u, hv, h⟩ := bind_ok h
  obtain rfl := Except.ok.inj h
  simp only [S3Config.validate] at hv
  split at hv
  · cases hv
  · rename_i hdots
    split at hv
    · cases hv
    · rename_i hroot
      exact ⟨_, rfl, require_iff.mp hk, require_iff.mp hk', hdots, hroot, rfl, rfl, rfl, rfl⟩

/-- What a configuration has to do with the document and the environment. -/
structure Resolved (vars : Vars) (y : AppConfigYaml) (cfg : AppConfig) : Prop where
  s3 : ∀ s, y.s3 = some s → ∃ c, cfg.s3 = some c ∧ S3Resolved vars s c
  noS3 : y.s3 = none → cfg.s3 = none
  token : ∀ name, y.security.bind SecurityConfigYaml.interServiceTokenEnv = some name → name ≠ "" →
    ∃ value, cfg.security.interServiceToken = some value ∧ Resolves vars name value
  noToken : y.security.bind SecurityConfigYaml.interServiceTokenEnv = none →
    cfg.security.interServiceToken = none
  emptyName : y.security.bind SecurityConfigYaml.interServiceTokenEnv = some "" →
    cfg.security.interServiceToken = none
  trustNetwork : cfg.security.trustNetwork
    = (y.security.bind SecurityConfigYaml.trustNetwork).getD AppConfig.default.security.trustNetwork
  adminEnabled : cfg.security.adminEnabled = adminEnabledFromEnv vars
  corsOrigin : cfg.corsOrigin = ""
  port : cfg.port = y.port.getD AppConfig.default.port
  documentationEnabled : cfg.documentationEnabled
    = y.documentationEnabled.getD AppConfig.default.documentationEnabled
  dataDirectory : cfg.fs.dataDirectory
    = (y.fs.bind FsConfigYaml.dataDirectory).getD AppConfig.default.fs.dataDirectory
  maxRequestBytes : cfg.limits.maxRequestBytes
    = (y.limits.bind LimitsConfigYaml.maxRequestBytes).getD AppConfig.default.limits.maxRequestBytes
  maxResponseBytes : cfg.limits.maxResponseBytes
    = (y.limits.bind LimitsConfigYaml.maxResponseBytes).getD
      AppConfig.default.limits.maxResponseBytes
  requestTimeoutSecs : cfg.limits.requestTimeoutSecs
    = (y.limits.bind LimitsConfigYaml.requestTimeoutSecs).getD
      AppConfig.default.limits.requestTimeoutSecs
  copyInactivitySecs : cfg.limits.copyInactivitySecs
    = (y.limits.bind LimitsConfigYaml.copyInactivitySecs).getD
      AppConfig.default.limits.copyInactivitySecs

theorem tokenFromYaml_ok {vars : Vars} {name : String} {token : Option String} (hn : name ≠ "")
    (h : tokenFromYaml vars (some name) = .ok token) :
    ∃ value, token = some value ∧ Resolves vars name value := by
  rw [tokenFromYaml, if_pos hn] at h
  obtain ⟨v, hv, rfl⟩ := map_ok h
  exact ⟨v, rfl, require_iff.mp hv⟩

/-- What the security block is read as. -/
theorem securityFromYaml_ok {vars : Vars} {y : Option SecurityConfigYaml} {c : SecurityConfig}
    (h : securityFromYaml vars y = .ok c) :
    tokenFromYaml vars (y.bind SecurityConfigYaml.interServiceTokenEnv) = .ok c.interServiceToken ∧
      c.trustNetwork = (y.bind SecurityConfigYaml.trustNetwork).getD false ∧
      c.adminEnabled = adminEnabledFromEnv vars := by
  cases y with
  | none =>
      obtain rfl := Except.ok.inj h
      exact ⟨rfl, rfl, rfl⟩
  | some s =>
      obtain ⟨token, ht, rfl⟩ := map_ok h
      exact ⟨ht, rfl, rfl⟩

/-- **An accepted document** is resolved. -/
theorem resolved_of_ok {vars : Vars} {y : AppConfigYaml} {cfg : AppConfig}
    (h : fromYaml vars y = .ok cfg) : Resolved vars y cfg := by
  obtain ⟨security, hsec, h⟩ := bind_ok h
  obtain ⟨s3, hs3, h⟩ := bind_ok h
  obtain ⟨htoken, htrust, hadmin⟩ := securityFromYaml_ok hsec
  dsimp only at h
  split at h
  · cases h
  · rename_i hcors
    obtain rfl := Except.ok.inj h
    exact {
      s3 := fun s hs => s3FromYaml_ok (hs ▸ hs3)
      noS3 := fun hs => by
        rw [hs, s3FromYaml] at hs3
        exact (Except.ok.inj hs3).symm
      token := fun name hd hn => tokenFromYaml_ok hn (hd ▸ htoken)
      noToken := fun hd => by
        rw [hd, tokenFromYaml] at htoken
        exact (Except.ok.inj htoken).symm
      emptyName := fun hd => by
        rw [hd, tokenFromYaml, if_neg (by simp)] at htoken
        exact (Except.ok.inj htoken).symm
      trustNetwork := htrust
      adminEnabled := hadmin
      corsOrigin := not_not.mp hcors
      port := rfl
      documentationEnabled := rfl
      dataDirectory := rfl
      maxRequestBytes := rfl
      maxResponseBytes := rfl
      requestTimeoutSecs := rfl
      copyInactivitySecs := rfl }

/-- The document names a variable that is not set, or is empty: for the token, where the name is
one, or for a credential. -/
inductive Dangling (vars : Vars) (y : AppConfigYaml) : Prop where
  | token {name : String} :
      y.security.bind SecurityConfigYaml.interServiceTokenEnv = some name → name ≠ "" →
      (∀ value, ¬ Resolves vars name value) → Dangling vars y
  | accessKeyId {s : S3ConfigYaml} : y.s3 = some s →
      (∀ value, ¬ Resolves vars s.accessKeyIdEnv value) → Dangling vars y
  | secretAccessKey {s : S3ConfigYaml} : y.s3 = some s →
      (∀ value, ¬ Resolves vars s.secretAccessKeyEnv value) → Dangling vars y

/-- **A document with a dangling reference** is refused. -/
theorem Dangling.refused {vars : Vars} {y : AppConfigYaml} (hd : Dangling vars y) :
    ∃ e, fromYaml vars y = .error e := by
  rcases h : fromYaml vars y with e | cfg
  · exact ⟨e, rfl⟩
  · have hr := resolved_of_ok h
    cases hd with
    | token hdecl hn hvars =>
        obtain ⟨v, -, hv⟩ := hr.token _ hdecl hn
        exact absurd hv (hvars v)
    | accessKeyId hs hvars =>
        obtain ⟨c, -, hc⟩ := hr.s3 _ hs
        exact absurd hc.accessKeyId (hvars _)
    | secretAccessKey hs hvars =>
        obtain ⟨c, -, hc⟩ := hr.s3 _ hs
        exact absurd hc.secretAccessKey (hvars _)

/-- **Boot resolves the document or refuses it.** -/
theorem fromYaml_resolves (vars : Vars) (y : AppConfigYaml) :
    (∀ cfg, fromYaml vars y = .ok cfg → Resolved vars y cfg) ∧
      (Dangling vars y → ∃ e, fromYaml vars y = .error e) :=
  ⟨fun _ h => resolved_of_ok h, Dangling.refused⟩

/-- A document with the two blocks that read the environment. -/
def sampleYaml (tokenEnv : String) : AppConfigYaml where
  port := none
  documentationEnabled := some false
  corsOrigin := none
  fs := none
  s3 := some ⟨"eu-north-1", "", "ferry", "in", "KEY", "SECRET"⟩
  limits := none
  security := some ⟨some tokenEnv, none⟩

/-- An environment in which every name but the empty one is set, and the operator's routes are
on. -/
def sampleVars : Vars := fun name => if name = "" then none else some "1"

theorem fromYaml_resolves_sample :
    Resolved sampleVars (sampleYaml "TOKEN")
      ⟨8080, false, "", FsConfig.default, some ⟨"eu-north-1", "", "ferry", "in", "1", "1"⟩,
        LimitsConfig.default, ⟨some "1", false, true⟩⟩ ∧
    ∃ e, fromYaml (fun _ => none) (sampleYaml "TOKEN") = .error e :=
  ⟨(fromYaml_resolves _ _).1 _ rfl,
    (fromYaml_resolves _ _).2 (.token rfl (by decide) fun _ h => by cases h.1)⟩

/-- A token variable whose name is empty gives no token, though it is declared; and the operator's
routes, which no document declares, are not at their default. -/
theorem empty_name_no_token :
    ∃ cfg, fromYaml sampleVars (sampleYaml "") = .ok cfg ∧
      (sampleYaml "").security.bind SecurityConfigYaml.interServiceTokenEnv = some "" ∧
      cfg.security.interServiceToken = none ∧
      cfg.security.adminEnabled ≠ AppConfig.default.security.adminEnabled :=
  ⟨_, rfl, rfl, rfl, by decide⟩

end FileFerry
