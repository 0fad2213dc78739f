import DataCatalog.Config
import DataCatalog.Proofs.Results
import DataCatalog.Proofs.SpelledNumbers

/-!
# What a configuration depends on

A configuration is resolved in three steps: the text of a base URL, the URL itself, and the timeout.
Only the first step looks at the experiment and the mode, and it does so only where no URL is given.
Each step fails as a fault of usage, and so does the whole.
-/

namespace DataCatalog

namespace Config

/-- A timeout in milliseconds is what the setting spells, or thirty seconds without a setting. -/
def SaysTimeout (setting : Option String) (timeout : UInt64) : Prop :=
  match setting with
  | none => timeout = 30000
  | some text => Text.Spells (Text.trim text.toList) timeout.toNat

/-- The last step of a resolution. -/
def withSetting (config : Config) (setting : Option String) : Except Error Config :=
  match setting with
  | none => .ok config
  | some text =>
    match Text.parseUInt64 (Text.trim text.toList) with
    | .ok timeout => .ok { config with timeout := timeout }
    | .error fault => .error (Cause.invalidTimeout fault).error

variable {toAscii : Url.ToAscii}

theorem resolve_eq (url experiment mode : Option String) (env : Environment)
    (toAscii : Url.ToAscii) :
    resolve url experiment mode env toAscii =
      baseText url experiment mode env >>= (ofUrl · toAscii) >>= (withSetting · env.timeout) := by
  rw [resolve]
  cases baseText url experiment mode env with
  | error e => rfl
  | ok text => cases hurl : ofUrl text toAscii <;> rfl

theorem timeout_of_ofUrl {text : String} {config : Config} (h : ofUrl text toAscii = .ok config) :
    config.timeout = 30000 := by
  obtain ⟨base, -, rfl⟩ := map_eq_ok_iff.mp h
  rfl

theorem withSetting_eq_ok_iff {config resolved : Config} {setting : Option String}
    (hdefault : config.timeout = 30000) :
    config.withSetting setting = .ok resolved ↔
      resolved.baseUrl = config.baseUrl ∧ SaysTimeout setting resolved.timeout := by
  obtain ⟨base, timeout⟩ := config
  obtain ⟨base', timeout'⟩ := resolved
  cases setting with
  | none =>
      have htimeout : timeout = 30000 := hdefault
      simp [withSetting, SaysTimeout, htimeout, eq_comm]
  | some text =>
      simp only [withSetting, SaysTimeout, ← Text.parseUInt64_eq_ok_iff]
      cases Text.parseUInt64 (Text.trim text.toList) with
      | error fault => simp
      | ok spelled => simp [eq_comm]

variable {url experiment mode : Option String} {env : Environment}

theorem baseText_of_given {text : String} (h : (url <|> env.url) = some text) :
    baseText url experiment mode env = .ok text := by
  simp [baseText, h]

theorem baseText_of_none (h : (url <|> env.url) = none) :
    baseText url experiment mode env =
      (Mode.parse ((mode <|> env.mode).getD "prod")).map
        (serviceRoot ((experiment <|> env.experiment).getD "lsst")) := by
  rw [baseText, h]
  cases (mode <|> env.mode) with
  | none => rfl
  | some text => exact bind_ok_eq_map (Mode.parse text) _

theorem resolve_eq_ok_iff {config : Config} :
    resolve url experiment mode env toAscii = .ok config ↔
      ∃ text given, baseText url experiment mode env = .ok text ∧
        ofUrl text toAscii = .ok given ∧ config.baseUrl = given.baseUrl ∧
        SaysTimeout env.timeout config.timeout := by
  rw [resolve_eq, bind_eq_ok_iff]
  simp only [bind_eq_ok_iff]
  constructor
  · rintro ⟨given, ⟨text, htext, hgiven⟩, hsetting⟩
    exact ⟨text, given, htext, hgiven,
      (withSetting_eq_ok_iff (timeout_of_ofUrl hgiven)).mp hsetting⟩
  · rintro ⟨text, given, htext, hgiven, hsetting⟩
    exact ⟨given, ⟨text, htext, hgiven⟩,
      (withSetting_eq_ok_iff (timeout_of_ofUrl hgiven)).mpr hsetting⟩

/-! ## Faults of a configuration -/

theorem kind_of_parse_error {text : String} {e : Error} (h : Mode.parse text = .error e) :
    e.kind = .usage := by
  simp only [Mode.parse] at h
  split at h
  · cases h
  · split at h
    · cases h
    · cases h
      rfl

theorem kind_of_baseText_error {e : Error} (h : baseText url experiment mode env = .error e) :
    e.kind = .usage := by
  cases hgiven : (url <|> env.url) with
  | none =>
      rw [baseText_of_none hgiven, map_eq_error_iff] at h
      exact kind_of_parse_error h
  | some text =>
      rw [baseText_of_given hgiven] at h
      cases h

theorem kind_of_ofUrl_error {text : String} {e : Error} (h : ofUrl text toAscii = .error e) :
    e.kind = .usage := by
  rw [ofUrl, map_eq_error_iff, parseBaseUrl] at h
  split at h
  · cases h
    rfl
  · cases h
    rfl
  · split at h
    · cases h
    · cases h
      rfl

theorem kind_of_withSetting_error {config : Config} {setting : Option String} {e : Error}
    (h : config.withSetting setting = .error e) : e.kind = .usage := by
  unfold withSetting at h
  split at h
  · cases h
  · split at h
    · cases h
    · cases h
      rfl

theorem kind_of_resolve_error {e : Error}
    (h : resolve url experiment mode env toAscii = .error e) : e.kind = .usage := by
  rw [resolve_eq, bind_eq_error_iff] at h
  rcases h with hbase | ⟨config, -, hsetting⟩
  · rcases bind_eq_error_iff.mp hbase with htext | ⟨text, -, hurl⟩
    · exact kind_of_baseText_error htext
    · exact kind_of_ofUrl_error hurl
  · exact kind_of_withSetting_error hsetting

/-- An explicit URL comes before that of the environment, and with either of them nothing else
counts but the timeout.  Without a URL, the experiment and the mode are each taken from the first
place that has one.  The timeout is that of the environment, or the default, and what keeps a
configuration from being made is always a fault of usage. -/
theorem resolve_precedence (url experiment mode : Option String) (env : Environment)
    (toAscii : Url.ToAscii) :
    (∀ text, (url <|> env.url) = some text →
        (∀ config, resolve url experiment mode env toAscii = .ok config ↔
          ∃ given, ofUrl text toAscii = .ok given ∧ config.baseUrl = given.baseUrl ∧
            SaysTimeout env.timeout config.timeout) ∧
        ∀ url' experiment' mode' env', (url' <|> env'.url) = some text →
          env'.timeout = env.timeout →
          resolve url' experiment' mode' env' toAscii = resolve url experiment mode env toAscii) ∧
      ((url <|> env.url) = none →
        let named := (experiment <|> env.experiment).getD "lsst"
        let chosen := (mode <|> env.mode).getD "prod"
        (∀ config, resolve url experiment mode env toAscii = .ok config ↔
          ∃ installation given, Mode.parse chosen = .ok installation ∧
            ofUrl (serviceRoot named installation) toAscii = .ok given ∧
            config.baseUrl = given.baseUrl ∧ SaysTimeout env.timeout config.timeout) ∧
        resolve url experiment mode env toAscii =
          resolve none (some named) (some chosen) { timeout := env.timeout } toAscii) ∧
      (∀ raw, env.timeout = some raw → (∀ n < 2 ^ 64, ¬Text.Spells (Text.trim raw.toList) n) →
        ∃ e, resolve url experiment mode env toAscii = .error e) ∧
      ∀ e, resolve url experiment mode env toAscii = .error e → e.kind = .usage := by
  refine ⟨fun text hgiven => ⟨fun config => ?_, ?_⟩, fun hnone => ⟨fun config => ?_, ?_⟩,
    fun raw hraw hspells => ?_, fun e => kind_of_resolve_error⟩
  · rw [resolve_eq_ok_iff, baseText_of_given hgiven]
    simp
  · intro url' experiment' mode' env' hgiven' htimeout
    rw [resolve_eq, resolve_eq, baseText_of_given hgiven, baseText_of_given hgiven', htimeout]
  · rw [resolve_eq_ok_iff, baseText_of_none hnone]
    simp only [map_eq_ok_iff]
    constructor
    · rintro ⟨_, given, ⟨installation, hmode, rfl⟩, hrest⟩
      exact ⟨installation, given, hmode, hrest⟩
    · rintro ⟨installation, given, hmode, hrest⟩
      exact ⟨_, given, ⟨installation, hmode, rfl⟩, hrest⟩
  · rw [resolve_eq, resolve_eq, baseText_of_none hnone, baseText_of_none rfl]
    rfl
  · cases hresolve : resolve url experiment mode env toAscii with
    | error e => exact ⟨e, rfl⟩
    | ok config =>
        obtain ⟨text, given, -, -, -, hsays⟩ := resolve_eq_ok_iff.mp hresolve
        rw [hraw] at hsays
        exact absurd hsays (hspells _ config.timeout.toNat_lt)

example : (resolve (some "http://a") none (some "none") { timeout := some " +05 " }).map timeout =
    .ok 5 := rfl

end Config
end DataCatalog
