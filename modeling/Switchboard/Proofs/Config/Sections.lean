import Switchboard.Config.Document
import Switchboard.Proofs.Json.Restoring

/-!
# Sections that come back

Settings come back from what is written of them, section by section, whatever other document lies
below: each member that a section writes is read by its field, the same in any order.

    relayCodec restores c from relayValue c, and so on
    codec restores ⟨c, []⟩ from toValue c
-/

namespace Switchboard.Config

open Json

/-! ## Sections -/

theorem relay_restores (c : RelaySettings) : relayCodec.Restores 1 (relayValue c) c := by
  have status : ∀ s : RelaySettings, relayRecord.Restores 0 s
      ("status_interval_secs", word c.statusInterval) { s with statusInterval := c.statusInterval } :=
    fun s => ⟨_, rfl, (word64_restores _).1.field _ _ s⟩
  have policy : ∀ s : RelaySettings, relayRecord.Restores 0 s
      ("duplicate_policy", .string (policyName c.duplicatePolicy))
      { s with duplicatePolicy := c.duplicatePolicy } :=
    fun s => ⟨_, rfl, (choice_restores (by cases c.duplicatePolicy <;> rfl)).field _ _ s⟩
  have size : ∀ s : RelaySettings, relayRecord.Restores 0 s
      ("max_message_size", word c.maxMessageSize) { s with maxMessageSize := c.maxMessageSize } :=
    fun s => ⟨_, rfl, (word64_restores _).2.field _ _ s⟩
  have capacity : ∀ s : RelaySettings, relayRecord.Restores 0 s
      ("outbound_queue_capacity", word c.queueCapacity) { s with queueCapacity := c.queueCapacity } :=
    fun s => ⟨_, rfl, (word64_restores _).2.field _ _ s⟩
  have interval : ∀ s : RelaySettings, relayRecord.Restores 0 s
      ("ping_interval_secs", word c.pingInterval) { s with pingInterval := c.pingInterval } :=
    fun s => ⟨_, rfl, (word64_restores _).1.field _ _ s⟩
  have timeout : ∀ s : RelaySettings, relayRecord.Restores 0 s
      ("ping_timeout_secs", word c.pingTimeout) { s with pingTimeout := c.pingTimeout } :=
    fun s => ⟨_, rfl, (word64_restores _).1.field _ _ s⟩
  have grace : ∀ s : RelaySettings, relayRecord.Restores 0 s
      ("shutdown_grace_secs", word c.shutdownGrace) { s with shutdownGrace := c.shutdownGrace } :=
    fun s => ⟨_, rfl, (word64_restores _).1.field _ _ s⟩
  have hsorted : (relayValue c).sorted = .object (([
      ("duplicate_policy", .string (policyName c.duplicatePolicy)),
      ("max_message_size", word c.maxMessageSize),
      ("outbound_queue_capacity", word c.queueCapacity),
      ("ping_interval_secs", word c.pingInterval),
      ("ping_timeout_secs", word c.pingTimeout),
      ("shutdown_grace_secs", word c.shutdownGrace),
      ("status_interval_secs", word c.statusInterval)] : Members).map fun m =>
        (m.1, m.2.sorted)) := by
    simp only [relayValue, Value.sorted, Value.sortedMembers, Members.ofList, Members.insert,
      List.foldl_cons, List.foldl_nil, List.map_cons, List.map_nil, String.reduceLT,
      String.reduceEq, reduceIte]
  exact Record.restores ["duplicate_policy", "max_message_size", "outbound_queue_capacity",
      "ping_interval_secs", "ping_timeout_secs", "shutdown_grace_secs", "status_interval_secs"]
    rfl (List.cons_ne_nil _ _) rfl (by decide) hsorted rfl (by decide) (by decide)
    ⟨_, status _, _, policy _, _, size _, _, capacity _, _, interval _, _, timeout _, _, grace _,
      rfl⟩
    ⟨_, policy _, _, size _, _, capacity _, _, interval _, _, timeout _, _, grace _, _, status _,
      rfl⟩

/-- A text or nothing. -/
theorem orNull_restores (o : Option String) : (optional text).Restores 0 (orNull o) o := by
  cases o with
  | none => exact optional_restores_none text
  | some s => exact optional_restores_some (text_restores s)

theorem finish_level (c : LogSettings) :
    RawLog.finish ⟨{ c with level := none }, c.level.map fun l => .string l.name⟩ = ⟨c, []⟩ := by
  obtain ⟨dir, filename, rotation, level, toFile, format⟩ := c
  cases level with
  | none => rfl
  | some l =>
    unfold RawLog.finish
    simp only [Option.map_some, levelOf, Level.ofText_name]

theorem log_restores (c : LogSettings) : logCodec.Restores 1 (logValue c) ⟨c, []⟩ := by
  have dir : ∀ s : RawLog, logRecord.Restores 0 s ("dir", .string c.dir)
      (s.update fun t => { t with dir := c.dir }) :=
    fun s => ⟨_, rfl, (text_restores _).field _ _ s⟩
  have filename : ∀ s : RawLog, logRecord.Restores 0 s ("filename", .string c.filename)
      (s.update fun t => { t with filename := c.filename }) :=
    fun s => ⟨_, rfl, (text_restores _).field _ _ s⟩
  have rotation : ∀ s : RawLog, logRecord.Restores 0 s ("rotation", .string c.rotation)
      (s.update fun t => { t with rotation := c.rotation }) :=
    fun s => ⟨_, rfl, (text_restores _).field _ _ s⟩
  have level : ∀ s : RawLog, logRecord.Restores 0 s ("level", orNull (c.level.map Level.name))
      { s with level := c.level.map fun l => .string l.name } := by
    intro s
    refine ⟨_, rfl, Codec.Restores.field ?_ _ _ s⟩
    cases c.level with
    | none => exact optional_restores_none anything
    | some l => exact optional_restores_some (anything_restores l.name)
  have toFile : ∀ s : RawLog, logRecord.Restores 0 s ("enable_file_logging", .bool c.toFile)
      (s.update fun t => { t with toFile := c.toFile }) :=
    fun s => ⟨_, rfl, (boolean_restores _).field _ _ s⟩
  have format : ∀ s : RawLog, logRecord.Restores 0 s ("format", .string (formatName c.format))
      (s.update fun t => { t with format := c.format }) :=
    fun s => ⟨_, rfl, (choice_restores (by cases c.format <;> rfl)).field _ _ s⟩
  have hsorted : (logValue c).sorted = .object (([
      ("dir", .string c.dir),
      ("enable_file_logging", .bool c.toFile),
      ("filename", .string c.filename),
      ("format", .string (formatName c.format)),
      ("level", orNull (c.level.map Level.name)),
      ("rotation", .string c.rotation)] : Members).map fun m => (m.1, m.2.sorted)) := by
    simp only [logValue, Value.sorted, Value.sortedMembers, Members.ofList, Members.insert,
      List.foldl_cons, List.foldl_nil, List.map_cons, List.map_nil, String.reduceLT,
      String.reduceEq, reduceIte]
  have hraw : (logRecord.codec {}).Restores 1 (logValue c)
      ⟨{ c with level := none }, c.level.map fun l => .string l.name⟩ :=
    Record.restores ["dir", "enable_file_logging", "filename", "format", "level", "rotation"]
      rfl (List.cons_ne_nil _ _) rfl (by decide) hsorted rfl (by decide) (by decide)
      ⟨_, dir _, _, filename _, _, rotation _, _, level _, _, toFile _, _, format _, rfl⟩
      ⟨_, dir _, _, toFile _, _, filename _, _, format _, _, level _, _, rotation _, rfl⟩
  have hfinish := hraw.map RawLog.finish
  rwa [finish_level] at hfinish

theorem tls_restores (c : TlsSettings) : (tlsRecord.codec {}).Restores 1 (tlsValue c) c := by
  have certificate : ∀ s : TlsSettings, tlsRecord.Restores 0 s
      ("certificate_path", orNull c.certificatePath)
      { s with certificatePath := c.certificatePath } :=
    fun s => ⟨_, rfl, (orNull_restores _).field _ _ s⟩
  have key : ∀ s : TlsSettings, tlsRecord.Restores 0 s
      ("private_key_path", orNull c.privateKeyPath) { s with privateKeyPath := c.privateKeyPath } :=
    fun s => ⟨_, rfl, (orNull_restores _).field _ _ s⟩
  have hsorted : (tlsValue c).sorted = .object (([
      ("certificate_path", orNull c.certificatePath),
      ("private_key_path", orNull c.privateKeyPath)] : Members).map fun m =>
        (m.1, m.2.sorted)) := by
    simp only [tlsValue, Value.sorted, Value.sortedMembers, Members.ofList, Members.insert,
      List.foldl_cons, List.foldl_nil, List.map_cons, List.map_nil, String.reduceLT,
      String.reduceEq, reduceIte]
  exact Record.restores ["certificate_path", "private_key_path"] rfl (List.cons_ne_nil _ _) rfl
    (by decide) hsorted rfl (by decide) (by decide) ⟨_, certificate _, _, key _, rfl⟩
    ⟨_, certificate _, _, key _, rfl⟩

/-- A section with one member alone. -/
theorem single_restores {σ : Type} {r : Record σ} {start e : σ} {depth : Nat} {name : String}
    {v : Value} (hr : r.required = false) (hname : r.fields.map (·.name) = [name])
    (h : r.Restores depth start (name, v) e) :
    (r.codec start).Restores (depth + 1) (.object [(name, v)]) e := by
  have hall : ∀ n ∈ r.fields.map (·.name), n ∈ [name] := by
    rw [hname]
    exact fun _ => id
  have hnodup : (r.fields.map (·.name)).Nodup := by
    rw [hname]
    exact List.nodup_singleton name
  have hone : Admits (r.Restores depth) [(name, v)] start e := ⟨e, h, rfl⟩
  have hsorted : (Value.object [(name, v)]).sorted =
      .object (([(name, v)] : Members).map fun m => (m.1, m.2.sorted)) := rfl
  exact Record.restores [name] hr (List.cons_ne_nil _ _) hname.symm hnodup hsorted rfl
    (List.pairwise_singleton _ _) hall hone hone

theorem security_restores (c : TlsSettings) :
    (securityRecord.codec {}).Restores 2 (.object [("tls", tlsValue c)]) c :=
  single_restores rfl rfl ⟨_, rfl, (tls_restores c).field _ _ _⟩

theorem assets_restores (o : Option String) :
    (assetsRecord.codec none).Restores 1 (.object [("www_path", orNull o)]) o :=
  single_restores rfl rfl ⟨_, rfl, (orNull_restores o).field _ _ _⟩

/-! ## All settings -/

theorem codec_restores (c : Config) : codec.Restores 3 (toValue c) ⟨c, []⟩ := by
  have host : ∀ d : Draft Config, record.Restores 2 d ("host", .string c.host)
      (d.update fun t => { t with host := c.host }) :=
    fun d => ⟨_, rfl, ((text_restores _).mono (Nat.zero_le 2)).field _ _ d⟩
  have port : ∀ d : Draft Config, record.Restores 2 d ("port", .number (.integer c.port.toNat))
      (d.update fun t => { t with port := c.port }) :=
    fun d => ⟨_, rfl, ((word16_restores _).mono (Nat.zero_le 2)).field _ _ d⟩
  have relay : ∀ d : Draft Config, record.Restores 2 d ("relay", relayValue c.relay)
      (d.update fun t => { t with relay := c.relay }) :=
    fun d => ⟨_, rfl, ((relay_restores _).mono (Nat.le_succ 1)).field _ _ d⟩
  have logging : ∀ d : Draft Config, record.Restores 2 d ("logging", logValue c.logging)
      ⟨{ d.settings with logging := c.logging }, d.notices ++ []⟩ :=
    fun d => ⟨_, rfl, ((log_restores _).mono (Nat.le_succ 1)).field _ _ d⟩
  have security : ∀ d : Draft Config, record.Restores 2 d
      ("security", .object [("tls", tlsValue c.tls)])
      (d.update fun t => { t with tls := c.tls }) :=
    fun d => ⟨_, rfl, (security_restores c.tls).field _ _ d⟩
  have assets : ∀ d : Draft Config, record.Restores 2 d
      ("assets", .object [("www_path", orNull c.wwwPath)])
      (d.update fun t => { t with wwwPath := c.wwwPath }) :=
    fun d => ⟨_, rfl, ((assets_restores _).mono (Nat.le_succ 1)).field _ _ d⟩
  have hsorted : (toValue c).sorted = .object (([
      ("assets", .object [("www_path", orNull c.wwwPath)]),
      ("host", .string c.host),
      ("logging", logValue c.logging),
      ("port", .number (.integer c.port.toNat)),
      ("relay", relayValue c.relay),
      ("security", .object [("tls", tlsValue c.tls)])] : Members).map fun m =>
        (m.1, m.2.sorted)) := by
    simp only [toValue, Value.sorted, Value.sortedMembers, Members.ofList, Members.insert,
      List.foldl_cons, List.foldl_nil, List.map_cons, List.map_nil, String.reduceLT,
      String.reduceEq, reduceIte]
  exact Record.restores ["assets", "host", "logging", "port", "relay", "security"] rfl
    (List.cons_ne_nil _ _) rfl (by decide) hsorted rfl (by decide) (by decide)
    ⟨_, host _, _, port _, _, relay _, _, logging _, _, security _, _, assets _, rfl⟩
    ⟨_, assets _, _, host _, _, logging _, _, port _, _, relay _, _, security _, rfl⟩

end Switchboard.Config
