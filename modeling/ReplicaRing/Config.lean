import ReplicaRing.Address
import ReplicaRing.FileTree
import ReplicaRing.Quoted
import ReplicaRing.Yaml.Value

/-!
# Configuration of a node

A configuration is a YAML document with a section for each part of a node; only the
address to listen at has to be given. Members that are not known are passed over. The
text has to say values of the right kind (`Config.ofDocument?`), and the values have to
make sense together (`Config.problem?`).
-/

namespace ReplicaRing

/-- The settings of a node. -/
structure Config where
  /-- Where the node listens; its point in the ring is made of it. -/
  listen : Address
  /-- The width of the identifier space. -/
  idBits : Nat := 32
  /-- The number of copies of each key. -/
  copies : Nat := 2
  /-- How long a peer may take, in milliseconds. -/
  rpcTimeout : Nat := 1000
  dataDir : String := "data"
  /-- The name of the flush policy. -/
  flush : String := "always"
  indexFanout : Nat := 16
  cacheCapacity : Nat := 1024
  /-- Where the counters are shown, if anywhere. -/
  metricsPort : Option Nat := none
deriving DecidableEq, Repr

/-- Why there is no configuration. -/
inductive ConfigError
  | io (error : IoError)
  /-- The text is no document, or does not say values of the right kind. -/
  | malformed
  /-- The values make no sense. -/
  | invalid (problem : String)
deriving DecidableEq, Repr

/-- The name of the kind of error. -/
def ConfigError.kind : ConfigError → String
  | .io _ => "Io"
  | .malformed => "Yaml"
  | .invalid _ => "Invalid"

/-- The text of the error. -/
def ConfigError.message : ConfigError → String
  | .io e => "failed to read config file: " ++ e.message
  | .malformed => "failed to parse YAML"
  | .invalid problem => "invalid config: " ++ problem

namespace Config

/-! ## Values -/

/-- The names of the flush policies. -/
def flushPolicies : List String := ["always", "batch", "none"]

/-- What makes no sense about the values: the first of several things. -/
def problem? (c : Config) : Option String :=
  if c.idBits = 0 || 160 < c.idBits then
    some s!"ring.id_bits must be in 1..=160, got {c.idBits}"
  else if c.copies = 0 then some "store.replication_count must be > 0"
  else if c.rpcTimeout = 0 then some "store.rpc_timeout_ms must be > 0"
  else if c.indexFanout < 2 then
    some s!"storage.index_fanout must be >= 2, got {c.indexFanout}"
  else if c.cacheCapacity = 0 then some "storage.offset_cache_capacity must be > 0"
  else if flushPolicies.contains c.flush.toLower then none
  else
    let names := ", ".intercalate (flushPolicies.map Quoted.quote)
    some s!"storage.fsync must be one of [{names}], got {Quoted.quote c.flush}"

/-- The configuration, if its values make sense. -/
def validate (c : Config) : Except ConfigError Config :=
  match c.problem? with
  | some problem => .error (.invalid problem)
  | none => .ok c

/-! ## Reading -/

/-- The configuration that a document says. -/
def ofDocument? (doc : Yaml.Document) : Option Config := do
  let top ← doc.section? doc.root
  let ring ← Yaml.member? top "ring" doc.section? (some [])
  let store ← Yaml.member? top "store" doc.section? (some [])
  let storage ← Yaml.member? top "storage" doc.section? (some [])
  return {
    listen := ← Yaml.member? top "listen" (fun n => (doc.text? n).bind Address.parse) none
    idBits := ← Yaml.member? ring "id_bits" (doc.number? UInt32.size) (some 32)
    copies := ← Yaml.member? store "replication_count" (doc.number? UInt32.size) (some 2)
    rpcTimeout := ← Yaml.member? store "rpc_timeout_ms" (doc.number? UInt64.size) (some 1000)
    dataDir := ← Yaml.member? storage "data_dir" doc.text? (some "data")
    flush := ← Yaml.member? storage "fsync" doc.text? (some "always")
    indexFanout := ← Yaml.member? storage "index_fanout" (doc.number? UInt64.size) (some 16)
    cacheCapacity :=
      ← Yaml.member? storage "offset_cache_capacity" (doc.number? UInt64.size) (some 1024)
    metricsPort :=
      ← Yaml.member? top "metrics_port" (doc.optional? (doc.number? UInt16.size)) (some none) }

/-- The configuration that a text says. -/
def parse (text : String) : Except ConfigError Config :=
  match (Yaml.Document.parse? text).bind ofDocument? with
  | none => .error .malformed
  | some c => c.validate

/-- The configuration that a file says. -/
def load (disk : FileTree) (path : Path) : Except ConfigError Config :=
  match disk.read path with
  | .error e => .error (.io e)
  | .ok bytes =>
    match Bytes.toString? bytes with
    | none => .error (.io .invalidUtf8)
    | some text => parse text

/-! ## Writing -/

/-- The text of the configuration. -/
def text (c : Config) : String :=
  "\n".intercalate
    ["listen: " ++ Yaml.quote c.listen.text,
      "ring:", s!"  id_bits: {c.idBits}",
      "store:", s!"  replication_count: {c.copies}", s!"  rpc_timeout_ms: {c.rpcTimeout}",
      "storage:", "  data_dir: " ++ Yaml.quote c.dataDir, "  fsync: " ++ Yaml.quote c.flush,
      s!"  index_fanout: {c.indexFanout}", s!"  offset_cache_capacity: {c.cacheCapacity}",
      match c.metricsPort with
        | some port => s!"metrics_port: {port}"
        | none => "metrics_port: null"] ++ "\n"

end Config

end ReplicaRing
