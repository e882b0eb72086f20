/-!
# Counters and their exposition

What a node does is counted: plain counters, counters with a label, and
histograms of durations, of which the number of observations counts here. A
`Tally` adds the counts up. The exposition of a tally is text in lines: for each
family of counters a help line and a type line, and for each counter a sample.
-/

namespace ReplicaRing

/-- A family of counters or histograms. -/
inductive Metric
  | objectsMigrated
  | offsetCacheHits
  | offsetCacheMisses
  | replicasForwarded
  | replicationFailures
  | rpcLatency
  | rpcsSentByType
  | rpcsSent
  | storagePhase
  | storeDeletes
  | storeGets
  | storePuts
  | topologyEvents
deriving DecidableEq, Repr

namespace Metric

/-- All families, in order of their names. -/
def all : List Metric :=
  [objectsMigrated, offsetCacheHits, offsetCacheMisses, replicasForwarded, replicationFailures,
    rpcLatency, rpcsSentByType, rpcsSent, storagePhase, storeDeletes, storeGets, storePuts,
    topologyEvents]

/-- The name of the family. -/
def name : Metric → String
  | objectsMigrated => "ringstore_objects_migrated_total"
  | offsetCacheHits => "ringstore_offset_cache_hits_total"
  | offsetCacheMisses => "ringstore_offset_cache_misses_total"
  | replicasForwarded => "ringstore_replicas_forwarded_total"
  | replicationFailures => "ringstore_replication_failures_total"
  | rpcLatency => "ringstore_rpc_latency_seconds"
  | rpcsSentByType => "ringstore_rpcs_sent_by_type_total"
  | rpcsSent => "ringstore_rpcs_sent_total"
  | storagePhase => "ringstore_storage_phase_seconds"
  | storeDeletes => "ringstore_store_deletes_total"
  | storeGets => "ringstore_store_gets_total"
  | storePuts => "ringstore_store_puts_total"
  | topologyEvents => "ringstore_topology_events_total"

/-- What the family counts. -/
def help : Metric → String
  | objectsMigrated => "Entries handed to a new predecessor"
  | offsetCacheHits => "Latest-offset cache hits"
  | offsetCacheMisses => "Latest-offset cache misses"
  | replicasForwarded => "Entries forwarded down the replica chain"
  | replicationFailures => "Replication or migration batches that failed"
  | rpcLatency => "Peer RPC latency in seconds"
  | rpcsSentByType => "Outbound peer RPCs sent, by type"
  | rpcsSent => "Total outbound peer RPCs sent"
  | storagePhase => "Time spent in each storage phase"
  | storeDeletes => "Tombstones appended to the local store"
  | storeGets => "Reads served by the local store"
  | storePuts => "Values appended to the local store"
  | topologyEvents => "Ring topology events handled, by kind"

/-- The upper ends of the finite buckets of a histogram, in seconds. -/
def buckets : Metric → List String
  | rpcLatency => ["0.0005", "0.001", "0.005", "0.01", "0.05", "0.1", "0.5", "1", "5"]
  | storagePhase =>
    ["0.00005", "0.0001", "0.0005", "0.001", "0.005", "0.01", "0.05", "0.1", "0.5"]
  | _ => []

/-- Whether the family is a counter or a histogram. -/
def kind (m : Metric) : String := if m.buckets.isEmpty then "counter" else "histogram"

/-- A label value between quotes. -/
def quoteLabel (s : String) : String :=
  let escape (c : Char) : List Char :=
    if c = '\\' then ['\\', '\\'] else if c = '"' then ['\\', '"']
    else if c = '\n' then ['\\', 'n'] else [c]
  "\"" ++ String.ofList (s.toList.flatMap escape) ++ "\""

/-- The labels of the counter of a family that has the label value `label`. -/
def labels (m : Metric) (label : String) : List String :=
  match m with
  | rpcLatency => ["direction=\"outbound\"", "rpc_type=" ++ quoteLabel label]
  | rpcsSentByType => ["rpc_type=" ++ quoteLabel label]
  | storagePhase => ["phase=" ++ quoteLabel label]
  | topologyEvents => ["kind=" ++ quoteLabel label]
  | _ => []

/-- The name of a sample: a name and its labels between braces. -/
def sampleName (name : String) (labels : List String) : String :=
  if labels.isEmpty then name else name ++ "\x7b" ++ ",".intercalate labels ++ "\x7d"

/-- The name of the sample of the bucket that ends at `upper`. -/
def bucketName (m : Metric) (label upper : String) : String :=
  sampleName (m.name ++ "_bucket") (m.labels label ++ ["le=\"" ++ upper ++ "\""])

/-- The names of the samples of all buckets. -/
def bucketNames (m : Metric) (label : String) : List String :=
  (m.buckets ++ ["+Inf"]).map (m.bucketName label)

/-- The help line and the type line of the family. -/
def heading (m : Metric) : List String :=
  ["# HELP " ++ m.name ++ " " ++ m.help, "# TYPE " ++ m.name ++ " " ++ m.kind]

/-- The names of the samples that count `n` observations of the family. -/
def sampleNames (m : Metric) (label : String) : List String :=
  if m.buckets.isEmpty then [sampleName m.name (m.labels label)]
  else [m.bucketName label "+Inf", sampleName (m.name ++ "_count") (m.labels label)]

end Metric

/-- One counter: a family and a label, which is empty for a plain counter. -/
structure Counter where
  metric : Metric
  label : String
deriving DecidableEq, Repr

/-- How often each counter has been counted up; no counter is listed twice. -/
structure Tally where
  counts : List (Counter × Nat)
deriving Repr

namespace Tally

/-- Nothing counted yet. -/
def zero : Tally := ⟨[]⟩

/-- How often the counter has been counted up. -/
def count (t : Tally) (c : Counter) : Nat := (t.counts.lookup c).getD 0

/-- The counts with the counter counted up `n` times. -/
def bump (c : Counter) (n : Nat) : List (Counter × Nat) → List (Counter × Nat)
  | [] => [(c, n)]
  | (d, m) :: rest => if d = c then (d, m + n) :: rest else (d, m) :: bump c n rest

/-- The tally with the labelled counter counted up `n` times. -/
def addLabelled (t : Tally) (m : Metric) (label : String) (n : Nat) : Tally :=
  ⟨bump ⟨m, label⟩ n t.counts⟩

theorem lookup_bump (c d : Counter) (n : Nat) (l : List (Counter × Nat)) :
    ((bump c n l).lookup d).getD 0 = (l.lookup d).getD 0 + if d = c then n else 0 := by
  induction l with
  | nil =>
    by_cases h : d = c
    · simp [bump, h]
    · have hb : (d == c) = false := by simpa using h
      simp [bump, List.lookup_cons, h, hb]
  | cons x l ih =>
    obtain ⟨e, m⟩ := x
    by_cases he : e = c
    · subst he
      by_cases h : d = e
      · simp [bump, h]
      · have hb : (d == e) = false := by simpa using h
        simp [bump, List.lookup_cons, h, hb]
    · by_cases h : d = e
      · subst h
        simp [bump, he]
      · have hb : (d == e) = false := by simpa using h
        simpa [bump, he, List.lookup_cons, hb] using ih

/-- Counting up is seen at that counter only. -/
theorem count_addLabelled (t : Tally) (m : Metric) (label : String) (n : Nat) (c : Counter) :
    (t.addLabelled m label n).count c = t.count c + if c = ⟨m, label⟩ then n else 0 :=
  lookup_bump _ _ _ _

/-- The tally with the plain counter counted up `n` times. -/
def add (t : Tally) (m : Metric) (n : Nat) : Tally := t.addLabelled m "" n

/-- A call to a peer goes out: it is counted, by type too, and timed. -/
def addCall (t : Tally) (type : String) : Tally :=
  ((t.add .rpcsSent 1).addLabelled .rpcsSentByType type 1).addLabelled .rpcLatency type 1

/-- The counts of both. -/
def merge (t u : Tally) : Tally :=
  u.counts.foldl (fun t (c, n) => t.addLabelled c.metric c.label n) t

/-- The samples of the exposition, with their values. -/
def samples (t : Tally) : List (String × Nat) :=
  t.counts.flatMap fun (c, n) => (c.metric.sampleNames c.label).map fun name => (name, n)

/-- The help and type lines of the exposition, in order. -/
def schema : List String := Metric.all.flatMap Metric.heading

end Tally

end ReplicaRing
