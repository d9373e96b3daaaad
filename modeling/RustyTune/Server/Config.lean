import RustyTune.Lib.Toml
import RustyTune.Lib.Utf8
import RustyTune.Lib.XRat
import RustyTune.Server.Api

/-!
# The configuration

A deployment profile gives a configuration to begin with; the file with the user's is laid over it.

* `RuntimeConfig` and its parts: `validate`, `desktop`, `appliance`; as TOML, `toValue` and `ofValue`.
* `RuntimeConfig.load`: the file laid over a profile's configuration.
* `applianceConfigPut`, `configure`: the two requests that write the file; `Written`.
* **`load_written`**: what a configuration that was written is loaded as: itself, but an optional field
  that it does not have is the profile's.
* **`saved_iff`**: so it is itself, but for an appliance without an admin socket. **`socket_returns`**.
-/

namespace RustyTune.Server

open Toml

/-- A path of a file; its bytes need not be UTF-8. -/
structure PathBuf where
  bytes : ByteArray

namespace PathBuf

instance : DecidableEq PathBuf := fun p q =>
  decidable_of_iff (p.bytes.data = q.bytes.data) <| by
    obtain ⟨⟨p⟩⟩ := p
    obtain ⟨⟨q⟩⟩ := q
    simp

def ofString (s : String) : PathBuf := ⟨s.toUTF8⟩

def display (p : PathBuf) : String := String.ofList (Text.utf8Lossy p.bytes.toList)

instance {F : Type} : Serde F PathBuf where
  encode p := (String.fromUTF8? p.bytes).map .string
  decode
    | .string s => some (ofString s)
    | _ => none
  decode_encode {p v} h := by
    obtain ⟨s, hs, rfl⟩ := Option.map_eq_some_iff.mp h
    rw [String.fromUTF8?] at hs
    split_ifs at hs
    obtain rfl := Option.some.inj hs
    rfl
  merge_encode _ h := by
    obtain ⟨s, -, rfl⟩ := Option.map_eq_some_iff.mp h
    rfl

end PathBuf

/-- The addresses of `std::net`, which print and parse. -/
class IpAddr (A : Type) where
  display : A → String
  parse : String → Option A
  parse_display (a : A) : parse (display a) = some a
  isLoopback : A → Bool
  /-- `127.0.0.1` -/
  localhost : A
  /-- `0.0.0.0` -/
  unspecified : A
  parse_localhost : parse "127.0.0.1" = some localhost
  parse_unspecified : parse "0.0.0.0" = some unspecified

/-! ## The parts of a configuration -/

section

variable (F A : Type)

structure ServerConfig where
  bind : A
  port : UInt16
  openBrowser : Bool
  adminSocket : Option PathBuf

structure EcuConfig where
  device : String
  mode : String
  baud : UInt32
  pollMs : UInt64
  autoConnect : Bool
  ini : Option PathBuf

structure LoggingConfig where
  directory : PathBuf
  auto : Bool
  retentionBytes : UInt64

structure EngineShutdownConfig where
  enabled : Bool
  armRpm : F
  stopRpm : F
  delaySeconds : UInt64

structure AuthenticationConfig where
  required : Bool
  stateDirectory : PathBuf
  masterPin : Option String

structure RuntimeConfig where
  server : ServerConfig A
  ecu : EcuConfig
  logging : LoggingConfig
  engineShutdown : EngineShutdownConfig F
  authentication : AuthenticationConfig
  /-- The file it is from; not written. -/
  sourcePath : Option PathBuf

end

variable {F A : Type} [F64 F] [IpAddr A]

instance : Serde F A where
  encode a := some (.string (IpAddr.display a))
  decode
    | .string s => IpAddr.parse s
    | _ => none
  decode_encode h := by
    obtain rfl := Option.some.inj h
    exact IpAddr.parse_display _
  merge_encode _ h := by
    obtain rfl := Option.some.inj h
    rfl

namespace ServerConfig

def default : ServerConfig A where
  bind := IpAddr.localhost
  port := 8642
  openBrowser := true
  adminSocket := none

def toFields (c : ServerConfig A) : List (String × FieldValue F) :=
  [("bind", present c.bind), ("port", present c.port), ("open_browser", present c.openBrowser),
    ("admin_socket", optional c.adminSocket)]

def ofValue (v : Value F) : Option (ServerConfig A) := do
  let get ← v.fields ["bind", "port", "open_browser", "admin_socket"]
  return {
    bind := ← field get "bind" (default : ServerConfig A).bind
    port := ← field get "port" (default : ServerConfig A).port
    openBrowser := ← field get "open_browser" (default : ServerConfig A).openBrowser
    adminSocket := ← fieldOption get "admin_socket" (default : ServerConfig A).adminSocket }

omit [F64 F] in
theorem nodup_toFields (c : ServerConfig A) :
    ((c.toFields : List (String × FieldValue F)).map Prod.fst).Nodup := by
  simp [toFields]

omit [F64 F] in
theorem ofValue_merge {x y : ServerConfig A} {a b : Table F}
    (ha : Table.ofFields x.toFields = some a) (hb : Table.ofFields y.toFields = some b) :
    ofValue (.table (a.merge b)) = some { y with adminSocket := y.adminSocket.or x.adminSocket } := by
  have hBind (missing : A) : field (a.merge b).get? "bind" missing = some y.bind :=
    field_merge hb (nodup_toFields y) (by simp [toFields])
  have hPort (missing : UInt16) : field (a.merge b).get? "port" missing = some y.port :=
    field_merge hb (nodup_toFields y) (by simp [toFields])
  have hOpenBrowser (missing : Bool) : field (a.merge b).get? "open_browser" missing = some y.openBrowser :=
    field_merge hb (nodup_toFields y) (by simp [toFields])
  have hAdminSocket : fieldOption (a.merge b).get? "admin_socket" none = some (y.adminSocket.or (x.adminSocket.or none)) :=
    fieldOption_merge ha hb (nodup_toFields x) (nodup_toFields y) (by simp [toFields])
      (by simp [toFields])
  simp [ofValue, Value.fields, default, hBind, hPort, hOpenBrowser, hAdminSocket]

end ServerConfig

namespace EcuConfig

def default : EcuConfig where
  device := ""
  mode := "primary"
  baud := 115200
  pollMs := 50
  autoConnect := false
  ini := none

def toFields (c : EcuConfig) : List (String × FieldValue F) :=
  [("device", present c.device), ("mode", present c.mode), ("baud", present c.baud),
    ("poll_ms", present c.pollMs), ("auto_connect", present c.autoConnect),
    ("ini", optional c.ini)]

def ofValue (v : Value F) : Option EcuConfig := do
  let get ← v.fields ["device", "mode", "baud", "poll_ms", "auto_connect", "ini"]
  return {
    device := ← field get "device" (default : EcuConfig).device
    mode := ← field get "mode" (default : EcuConfig).mode
    baud := ← field get "baud" (default : EcuConfig).baud
    pollMs := ← field get "poll_ms" (default : EcuConfig).pollMs
    autoConnect := ← field get "auto_connect" (default : EcuConfig).autoConnect
    ini := ← fieldOption get "ini" (default : EcuConfig).ini }

omit [F64 F] in
theorem nodup_toFields (c : EcuConfig) :
    ((c.toFields : List (String × FieldValue F)).map Prod.fst).Nodup := by
  simp [toFields]

omit [F64 F] in
theorem ofValue_merge {x y : EcuConfig} {a b : Table F}
    (ha : Table.ofFields x.toFields = some a) (hb : Table.ofFields y.toFields = some b) :
    ofValue (.table (a.merge b)) = some { y with ini := y.ini.or x.ini } := by
  have hDevice (missing : String) : field (a.merge b).get? "device" missing = some y.device :=
    field_merge hb (nodup_toFields y) (by simp [toFields])
  have hMode (missing : String) : field (a.merge b).get? "mode" missing = some y.mode :=
    field_merge hb (nodup_toFields y) (by simp [toFields])
  have hBaud (missing : UInt32) : field (a.merge b).get? "baud" missing = some y.baud :=
    field_merge hb (nodup_toFields y) (by simp [toFields])
  have hPollMs (missing : UInt64) : field (a.merge b).get? "poll_ms" missing = some y.pollMs :=
    field_merge hb (nodup_toFields y) (by simp [toFields])
  have hAutoConnect (missing : Bool) : field (a.merge b).get? "auto_connect" missing = some y.autoConnect :=
    field_merge hb (nodup_toFields y) (by simp [toFields])
  have hIni : fieldOption (a.merge b).get? "ini" none = some (y.ini.or (x.ini.or none)) :=
    fieldOption_merge ha hb (nodup_toFields x) (nodup_toFields y) (by simp [toFields])
      (by simp [toFields])
  simp [ofValue, Value.fields, default, hDevice, hMode, hBaud, hPollMs, hAutoConnect, hIni]

end EcuConfig

namespace LoggingConfig

def default : LoggingConfig where
  directory := .ofString "logs"
  auto := false
  retentionBytes := 0

def toFields (c : LoggingConfig) : List (String × FieldValue F) :=
  [("directory", present c.directory), ("auto", present c.auto),
    ("retention_bytes", present c.retentionBytes)]

def ofValue (v : Value F) : Option LoggingConfig := do
  let get ← v.fields ["directory", "auto", "retention_bytes"]
  return {
    directory := ← field get "directory" (default : LoggingConfig).directory
    auto := ← field get "auto" (default : LoggingConfig).auto
    retentionBytes := ← field get "retention_bytes" (default : LoggingConfig).retentionBytes }

omit [F64 F] in
theorem nodup_toFields (c : LoggingConfig) :
    ((c.toFields : List (String × FieldValue F)).map Prod.fst).Nodup := by
  simp [toFields]

omit [F64 F] in
theorem ofValue_merge {y : LoggingConfig} {a b : Table F}
    (hb : Table.ofFields y.toFields = some b) : ofValue (.table (a.merge b)) = some y := by
  have hDirectory (missing : PathBuf) : field (a.merge b).get? "directory" missing = some y.directory :=
    field_merge hb (nodup_toFields y) (by simp [toFields])
  have hAuto (missing : Bool) : field (a.merge b).get? "auto" missing = some y.auto :=
    field_merge hb (nodup_toFields y) (by simp [toFields])
  have hRetentionBytes (missing : UInt64) : field (a.merge b).get? "retention_bytes" missing = some y.retentionBytes :=
    field_merge hb (nodup_toFields y) (by simp [toFields])
  simp [ofValue, Value.fields, default, hDirectory, hAuto, hRetentionBytes]

end LoggingConfig

namespace EngineShutdownConfig

def default : EngineShutdownConfig F where
  enabled := false
  armRpm := 500
  stopRpm := 50
  delaySeconds := 15

def toFields (c : EngineShutdownConfig F) : List (String × FieldValue F) :=
  [("enabled", present c.enabled), ("arm_rpm", present c.armRpm), ("stop_rpm", present c.stopRpm),
    ("delay_seconds", present c.delaySeconds)]

def ofValue (v : Value F) : Option (EngineShutdownConfig F) := do
  let get ← v.fields ["enabled", "arm_rpm", "stop_rpm", "delay_seconds"]
  return {
    enabled := ← field get "enabled" (default : EngineShutdownConfig F).enabled
    armRpm := ← field get "arm_rpm" (default : EngineShutdownConfig F).armRpm
    stopRpm := ← field get "stop_rpm" (default : EngineShutdownConfig F).stopRpm
    delaySeconds := ← field get "delay_seconds" (default : EngineShutdownConfig F).delaySeconds }

theorem nodup_toFields (c : EngineShutdownConfig F) :
    ((c.toFields : List (String × FieldValue F)).map Prod.fst).Nodup := by
  simp [toFields]

theorem ofValue_merge {y : EngineShutdownConfig F} {a b : Table F}
    (hb : Table.ofFields y.toFields = some b) : ofValue (.table (a.merge b)) = some y := by
  have hEnabled (missing : Bool) : field (a.merge b).get? "enabled" missing = some y.enabled :=
    field_merge hb (nodup_toFields y) (by simp [toFields])
  have hArmRpm (missing : F) : field (a.merge b).get? "arm_rpm" missing = some y.armRpm :=
    field_merge hb (nodup_toFields y) (by simp [toFields])
  have hStopRpm (missing : F) : field (a.merge b).get? "stop_rpm" missing = some y.stopRpm :=
    field_merge hb (nodup_toFields y) (by simp [toFields])
  have hDelaySeconds (missing : UInt64) : field (a.merge b).get? "delay_seconds" missing = some y.delaySeconds :=
    field_merge hb (nodup_toFields y) (by simp [toFields])
  simp [ofValue, Value.fields, default, hEnabled, hArmRpm, hStopRpm, hDelaySeconds]

end EngineShutdownConfig

namespace AuthenticationConfig

def default : AuthenticationConfig where
  required := false
  stateDirectory := .ofString "."
  masterPin := none

def toFields (c : AuthenticationConfig) : List (String × FieldValue F) :=
  [("required", present c.required), ("state_directory", present c.stateDirectory),
    ("master_pin", optional c.masterPin)]

def ofValue (v : Value F) : Option AuthenticationConfig := do
  let get ← v.fields ["required", "state_directory", "master_pin"]
  return {
    required := ← field get "required" (default : AuthenticationConfig).required
    stateDirectory := ← field get "state_directory" (default : AuthenticationConfig).stateDirectory
    masterPin := ← fieldOption get "master_pin" (default : AuthenticationConfig).masterPin }

omit [F64 F] in
theorem nodup_toFields (c : AuthenticationConfig) :
    ((c.toFields : List (String × FieldValue F)).map Prod.fst).Nodup := by
  simp [toFields]

omit [F64 F] in
theorem ofValue_merge {x y : AuthenticationConfig} {a b : Table F}
    (ha : Table.ofFields x.toFields = some a) (hb : Table.ofFields y.toFields = some b) :
    ofValue (.table (a.merge b)) = some { y with masterPin := y.masterPin.or x.masterPin } := by
  have hRequired (missing : Bool) : field (a.merge b).get? "required" missing = some y.required :=
    field_merge hb (nodup_toFields y) (by simp [toFields])
  have hStateDirectory (missing : PathBuf) : field (a.merge b).get? "state_directory" missing = some y.stateDirectory :=
    field_merge hb (nodup_toFields y) (by simp [toFields])
  have hMasterPin : fieldOption (a.merge b).get? "master_pin" none = some (y.masterPin.or (x.masterPin.or none)) :=
    fieldOption_merge ha hb (nodup_toFields x) (nodup_toFields y) (by simp [toFields])
      (by simp [toFields])
  simp [ofValue, Value.fields, default, hRequired, hStateDirectory, hMasterPin]

end AuthenticationConfig

/-! ## The configuration -/

/-- What the TOML library does with text, and what it says when it cannot. -/
structure TomlText (F : Type) where
  toStringPretty : Value F → String
  fromStr : String → Except String (Value F)
  writeError : String
  valueError : String
  readError : Value F → String

namespace RuntimeConfig

def desktop : RuntimeConfig F A where
  server := .default
  ecu := .default
  logging := .default
  engineShutdown := .default
  authentication := .default
  sourcePath := none

def appliance : RuntimeConfig F A where
  server :=
    { bind := IpAddr.unspecified
      port := 80
      openBrowser := false
      adminSocket := some (.ofString "/run/rustytune/admin.sock") }
  ecu := { EcuConfig.default with device := "/dev/serial0", autoConnect := true }
  logging :=
    { directory := .ofString "/var/log/speeduino"
      auto := true
      retentionBytes := 2 * 1024 * 1024 * 1024 }
  engineShutdown := .default
  authentication :=
    { required := true
      stateDirectory := .ofString "/var/lib/rustytune"
      masterPin := none }
  sourcePath := none

def toFields (c : RuntimeConfig F A) : List (String × FieldValue F) :=
  [("server", record c.server.toFields), ("ecu", record c.ecu.toFields),
    ("logging", record c.logging.toFields),
    ("engine_shutdown", record c.engineShutdown.toFields),
    ("authentication", record c.authentication.toFields)]

/-- `None` when some value has no place in TOML. -/
def toValue (c : RuntimeConfig F A) : Option (Value F) := (Table.ofFields c.toFields).map .table

def ofValue (v : Value F) : Option (RuntimeConfig F A) := do
  let get ← v.fields ["server", "ecu", "logging", "engine_shutdown", "authentication"]
  return {
    server := ← fieldRecord ServerConfig.ofValue get "server" .default
    ecu := ← fieldRecord EcuConfig.ofValue get "ecu" .default
    logging := ← fieldRecord LoggingConfig.ofValue get "logging" .default
    engineShutdown := ← fieldRecord EngineShutdownConfig.ofValue get "engine_shutdown" .default
    authentication := ← fieldRecord AuthenticationConfig.ofValue get "authentication" .default
    sourcePath := none }

/-- The configuration that the file gives, if there is one at the path. -/
def load (toml : TomlText F) (path : PathBuf) (file : Option (Except String String))
    (base : RuntimeConfig F A) : Except String (RuntimeConfig F A) :=
  match file with
  | none => .ok { base with sourcePath := some path }
  | some (.error e) => .error s!"read {path.display}: {e}"
  | some (.ok text) =>
    match base.toValue with
    | none => .error toml.valueError
    | some root =>
      match toml.fromStr text with
      | .error e => .error s!"parse {path.display}: {e}"
      | .ok overlay =>
        match ofValue (root.merge overlay) with
        | none => .error (toml.readError (root.merge overlay))
        | some config => .ok { config with sourcePath := some path }

def validate (c : RuntimeConfig F A) : Except String Unit :=
  let cfg := c.engineShutdown
  if c.authentication.masterPin.any fun pin =>
      let bytes := Text.utf8Encode pin.toList
      bytes.length != 6 || !bytes.all fun byte => 48 ≤ byte && byte ≤ 57 then
    .error "authentication.master_pin must contain exactly six digits"
  else if !F64.isFinite cfg.stopRpm || F64.lt cfg.stopRpm 0 then
    .error "engine_shutdown.stop_rpm must be a finite non-negative number"
  else if !F64.isFinite cfg.armRpm || F64.le cfg.armRpm cfg.stopRpm then
    .error "engine_shutdown.arm_rpm must be greater than stop_rpm"
  else if !(1 ≤ cfg.delaySeconds && cfg.delaySeconds ≤ 600) then
    .error "engine_shutdown.delay_seconds must be between 1 and 600"
  else .ok ()

/-- The configuration, its optional fields from `base` where it has none. -/
def atop (c base : RuntimeConfig F A) (path : PathBuf) : RuntimeConfig F A where
  server := { c.server with adminSocket := c.server.adminSocket.or base.server.adminSocket }
  ecu := { c.ecu with ini := c.ecu.ini.or base.ecu.ini }
  logging := c.logging
  engineShutdown := c.engineShutdown
  authentication :=
    { c.authentication with
      masterPin := c.authentication.masterPin.or base.authentication.masterPin }
  sourcePath := some path

theorem nodup_toFields (c : RuntimeConfig F A) : (c.toFields.map Prod.fst).Nodup := by
  simp [toFields]

theorem ofValue_merge {base c : RuntimeConfig F A} {u v : Value F} (hu : base.toValue = some u)
    (hv : c.toValue = some v) (path : PathBuf) :
    (ofValue (u.merge v)).map (fun c => { c with sourcePath := some path }) =
      some (c.atop base path) := by
  obtain ⟨a, ha, rfl⟩ := Option.map_eq_some_iff.mp hu
  obtain ⟨b, hb, rfl⟩ := Option.map_eq_some_iff.mp hv
  have hx := nodup_toFields base
  have hy := nodup_toFields c
  have hserver : fieldRecord ServerConfig.ofValue (a.merge b).get? "server" .default =
      some (c.atop base path).server :=
    fieldRecord_merge (x := c.server.toFields) (y := base.server.toFields) ha hb hx hy
      (by simp [toFields]) (by simp [toFields])
      fun _ _ hc hd => ServerConfig.ofValue_merge hc hd
  have hecu : fieldRecord EcuConfig.ofValue (a.merge b).get? "ecu" .default =
      some (c.atop base path).ecu :=
    fieldRecord_merge (x := c.ecu.toFields) (y := base.ecu.toFields) ha hb hx hy
      (by simp [toFields]) (by simp [toFields])
      fun _ _ hc hd => EcuConfig.ofValue_merge hc hd
  have hlogging : fieldRecord LoggingConfig.ofValue (a.merge b).get? "logging" .default =
      some (c.atop base path).logging :=
    fieldRecord_merge (x := c.logging.toFields) (y := base.logging.toFields) ha hb hx hy
      (by simp [toFields]) (by simp [toFields])
      fun _ _ _ hd => LoggingConfig.ofValue_merge hd
  have hshutdown : fieldRecord EngineShutdownConfig.ofValue (a.merge b).get? "engine_shutdown"
      .default = some (c.atop base path).engineShutdown :=
    fieldRecord_merge (x := c.engineShutdown.toFields) (y := base.engineShutdown.toFields) ha hb hx hy
      (by simp [toFields]) (by simp [toFields])
      fun _ _ _ hd => EngineShutdownConfig.ofValue_merge hd
  have hauth : fieldRecord AuthenticationConfig.ofValue (a.merge b).get? "authentication"
      .default = some (c.atop base path).authentication :=
    fieldRecord_merge (x := c.authentication.toFields) (y := base.authentication.toFields) ha hb hx hy
      (by simp [toFields]) (by simp [toFields])
      fun _ _ hc hd => AuthenticationConfig.ofValue_merge hc hd
  simp [ofValue, Value.merge, Value.fields, hserver, hecu, hlogging, hshutdown, hauth, atop]

end RuntimeConfig

/-! ## Writing the file -/

/-- A deployment profile. -/
inductive Profile
  | desktop
  | appliance
  deriving DecidableEq, Repr

/-- The configuration a profile begins with. -/
def Profile.base : Profile → RuntimeConfig F A
  | .desktop => .desktop
  | .appliance => .appliance

/-- The text that is written to the file of `runtime`; `write`: what writing it gives. -/
def applianceConfigPut (toml : TomlText F) (runtime cfg : RuntimeConfig F A)
    (write : Except String Unit) : Except ApiError String :=
  match runtime.sourcePath with
  | none => .error ⟨.conflict, "no configuration file was selected at startup"⟩
  | some path =>
    if !IpAddr.isLoopback cfg.server.bind && !cfg.authentication.required then
      .error ⟨.badRequest, "authentication is required for a non-loopback listener"⟩
    else
      match cfg.validate with
      | .error e => .error ⟨.badRequest, e⟩
      | .ok () =>
        match cfg.toValue with
        | none => .error ⟨.badRequest, toml.writeError⟩
        | some v =>
          match write with
          | .ok () => .ok (toml.toStringPretty v)
          | .error e => .error ⟨.internalServerError, s!"write {path.display}: {e}"⟩

/-- What a `configure` command of the management socket sets. -/
structure Configure where
  device : Option String
  mode : Option String
  baud : Option UInt64
  autoLog : Option Bool
  deriving DecidableEq, Repr

def Configure.set (request : Configure) (runtime : RuntimeConfig F A) : RuntimeConfig F A :=
  let ecu := runtime.ecu
  let ecu := { ecu with device := request.device.getD ecu.device }
  let ecu := match request.mode with
    | some v => if v = "primary" ∨ v = "secondary" then { ecu with mode := v } else ecu
    | none => ecu
  let ecu := match request.baud with
    | some v => if 1200 ≤ v ∧ v ≤ 1000000 then { ecu with baud := v.toUInt32 } else ecu
    | none => ecu
  { runtime with
    ecu
    logging := { runtime.logging with auto := request.autoLog.getD runtime.logging.auto } }

/-- The text that a `configure` command writes. -/
def configure (toml : TomlText F) (runtime : RuntimeConfig F A) (request : Configure)
    (write : Except String Unit) : Except String String :=
  match runtime.sourcePath with
  | none => .error "no appliance configuration file"
  | some _ =>
    match (request.set runtime).toValue with
    | none => .error s!"serialize configuration: {toml.writeError}"
    | some v =>
      match write with
      | .ok () => .ok (toml.toStringPretty v)
      | .error e => .error s!"save configuration: {e}"

/-- One of the two requests has written `c`, as `text`. -/
inductive Written (toml : TomlText F) : RuntimeConfig F A → String → Prop
  | put {runtime c : RuntimeConfig F A} {write : Except String Unit} {text : String} :
    applianceConfigPut toml runtime c write = .ok text → Written toml c text
  | configure {runtime : RuntimeConfig F A} {request : Configure} {write : Except String Unit}
    {text : String} :
    configure toml runtime request write = .ok text → Written toml (request.set runtime) text

section

variable {toml : TomlText F} {c base : RuntimeConfig F A} {text : String} {path : PathBuf}

theorem Written.text_eq (h : Written toml c text) :
    ∃ v, c.toValue = some v ∧ text = toml.toStringPretty v := by
  cases h with
  | put h =>
    rw [applianceConfigPut] at h
    split at h
    · exact nomatch h
    · split_ifs at h
      split at h
      · exact nomatch h
      · split at h
        · exact nomatch h
        next v hv =>
          split at h
          · exact ⟨v, hv, (Except.ok.inj h).symm⟩
          · exact nomatch h
  | configure h =>
    rw [RustyTune.Server.configure] at h
    split at h
    · exact nomatch h
    · split at h
      · exact nomatch h
      next v hv =>
        split at h
        · exact ⟨v, hv, (Except.ok.inj h).symm⟩
        · exact nomatch h

/-- **Loading what was written.** -/
theorem load_written {u : Value F} (hbase : base.toValue = some u) (h : Written toml c text)
    (hround : ∀ v, c.toValue = some v → toml.fromStr (toml.toStringPretty v) = .ok v) :
    RuntimeConfig.load toml path (some (.ok text)) base = .ok (c.atop base path) := by
  obtain ⟨v, hv, rfl⟩ := h.text_eq
  have hmerge := RuntimeConfig.ofValue_merge hbase hv path
  obtain ⟨d, hd, hatop⟩ := Option.map_eq_some_iff.mp hmerge
  simp only [RuntimeConfig.load, hbase, hround v hv, hd]
  rw [← hatop]

omit [F64 F] in
@[simp] theorem isSome_encode_ofString (s : String) :
    (Serde.encode (PathBuf.ofString s) : Option (Value F)).isSome = true := by
  have hs : String.fromUTF8? s.toUTF8 = some s := dif_pos s.isValidUTF8
  simp only [Serde.encode, PathBuf.ofString, hs, Option.map_some, Option.isSome_some]

omit [F64 F] in
@[simp] theorem isSome_encode_ip (a : A) :
    (Serde.encode a : Option (Value F)).isSome = true := rfl

theorem exists_toValue_base (p : Profile) :
    ∃ u : Value F, (p.base : RuntimeConfig F A).toValue = some u := by
  rw [← Option.isSome_iff_exists, RuntimeConfig.toValue, Option.isSome_map, Table.isSome_ofFields]
  cases p with
  | desktop =>
    simp [Profile.base, RuntimeConfig.desktop, RuntimeConfig.toFields, isSome_record,
      ServerConfig.toFields, EcuConfig.toFields, LoggingConfig.toFields,
      EngineShutdownConfig.toFields, AuthenticationConfig.toFields, isSome_present,
      ServerConfig.default, EcuConfig.default, LoggingConfig.default, EngineShutdownConfig.default,
      AuthenticationConfig.default, Toml.optional]
  | appliance =>
    simp [Profile.base, RuntimeConfig.appliance, RuntimeConfig.toFields, isSome_record,
      ServerConfig.toFields, EcuConfig.toFields, LoggingConfig.toFields,
      EngineShutdownConfig.toFields, AuthenticationConfig.toFields, isSome_present,
      EcuConfig.default, EngineShutdownConfig.default, Toml.optional]

omit [F64 F] [IpAddr A] in
theorem atop_eq_self {c base : RuntimeConfig F A}
    (hsocket : c.server.adminSocket.or base.server.adminSocket = c.server.adminSocket)
    (hini : base.ecu.ini = none) (hpin : base.authentication.masterPin = none) (path : PathBuf) :
    c.atop base path = { c with sourcePath := some path } := by
  rw [RuntimeConfig.atop, hsocket, hini, hpin, Option.or_none, Option.or_none]

/-- **Saving and loading.** A configuration that was written is loaded as itself exactly if the profile
is not the appliance's or it has an admin socket. -/
theorem saved_iff (p : Profile) (h : Written toml c text)
    (hround : ∀ v, c.toValue = some v → toml.fromStr (toml.toStringPretty v) = .ok v) :
    RuntimeConfig.load toml path (some (.ok text)) p.base = .ok { c with sourcePath := some path } ↔
      p = .desktop ∨ c.server.adminSocket ≠ none := by
  obtain ⟨u, hu⟩ := exists_toValue_base (F := F) (A := A) p
  rw [load_written hu h hround, Except.ok.injEq]
  cases p with
  | desktop => exact iff_of_true (atop_eq_self Option.or_none rfl rfl path) (.inl rfl)
  | appliance =>
    constructor
    · intro heq
      have hsocket := congrArg (·.server.adminSocket) heq
      refine .inr fun hnone => ?_
      rw [RuntimeConfig.atop, hnone] at hsocket
      exact nomatch hsocket
    · rintro (hp | hsocket)
      · exact nomatch hp
      · obtain ⟨socket, hs⟩ := Option.ne_none_iff_exists'.mp hsocket
        exact atop_eq_self (by rw [hs, Option.some_or]) rfl rfl path

end

/-! ## An appliance without a socket -/

/-- Two addresses. -/
inductive SampleAddr
  | localhost
  | unspecified
  deriving DecidableEq

instance : IpAddr SampleAddr where
  display
    | .localhost => "127.0.0.1"
    | .unspecified => "0.0.0.0"
  parse s :=
    if s = "127.0.0.1" then some .localhost else if s = "0.0.0.0" then some .unspecified else none
  parse_display a := by cases a <;> decide
  isLoopback a := a == .localhost
  localhost := .localhost
  unspecified := .unspecified
  parse_localhost := by decide
  parse_unspecified := by decide

/-- The text of a configuration that turns the admin socket off. -/
def socketOffText : String :=
  "[server]\nbind = \"0.0.0.0\"\nport = 80\nopen_browser = false\n\n" ++
  "[ecu]\ndevice = \"/dev/serial0\"\nmode = \"primary\"\nbaud = 115200\npoll_ms = 50\n" ++
  "auto_connect = true\n\n" ++
  "[logging]\ndirectory = \"/var/log/speeduino\"\nauto = true\nretention_bytes = 2147483648\n\n" ++
  "[engine_shutdown]\nenabled = false\narm_rpm = 500.0\nstop_rpm = 50.0\ndelay_seconds = 15\n\n" ++
  "[authentication]\nrequired = true\nstate_directory = \"/var/lib/rustytune\"\n"

def socketOff : RuntimeConfig XRat SampleAddr :=
  let c : RuntimeConfig XRat SampleAddr := .appliance
  { c with server := { c.server with adminSocket := none } }

def socketOffToml : TomlText XRat where
  toStringPretty _ := socketOffText
  fromStr _ := socketOff.toValue.elim (.error "") .ok
  writeError := ""
  valueError := ""
  readError _ := ""

theorem socketOff_valid : socketOff.validate = .ok () := by decide +kernel

theorem socketOff_written : Written socketOffToml socketOff socketOffText := by
  have hput : applianceConfigPut socketOffToml
      { socketOff with sourcePath := some (.ofString "/etc/rustytune/rustytune.toml") } socketOff
      (.ok ()) = .ok socketOffText := by decide +kernel
  exact .put hput

theorem socketOff_round (v : Value XRat) (hv : socketOff.toValue = some v) :
    socketOffToml.fromStr (socketOffToml.toStringPretty v) = .ok v := by
  rw [socketOffToml, hv]
  rfl

theorem saved_iff_desktop :
    RuntimeConfig.load socketOffToml (.ofString "/etc/rustytune/rustytune.toml")
        (some (.ok socketOffText)) Profile.desktop.base =
      .ok { socketOff with sourcePath := some (.ofString "/etc/rustytune/rustytune.toml") } :=
  (saved_iff .desktop socketOff_written socketOff_round).mpr (.inl rfl)

/-- **The socket returns.** Saved without an admin socket, the configuration of an appliance is loaded
with one. -/
theorem socket_returns : ¬ ∀ (toml : TomlText XRat) (c : RuntimeConfig XRat SampleAddr)
    (text : String) (path : PathBuf) (p : Profile), c.validate = .ok () → Written toml c text →
    (∀ v, c.toValue = some v → toml.fromStr (toml.toStringPretty v) = .ok v) →
    RuntimeConfig.load toml path (some (.ok text)) p.base =
      .ok { c with sourcePath := some path } := by
  intro h
  obtain ⟨u, hu⟩ := exists_toValue_base (F := XRat) (A := SampleAddr) .appliance
  have hload := h socketOffToml socketOff socketOffText (.ofString "") .appliance socketOff_valid
    socketOff_written socketOff_round
  rw [load_written hu socketOff_written socketOff_round] at hload
  have hsocket := congrArg (·.server.adminSocket) (Except.ok.inj hload)
  exact nomatch hsocket

end RustyTune.Server
