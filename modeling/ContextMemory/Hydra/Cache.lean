/-
The bounded cache of a graph shard (`BoundedGraphCache` in `hydradb/src/core/cache.rs`).

Entries belong to tenants, take memory and may be pinned. An insertion evicts, within its tenant
and then in the whole cache, until the limits are met: the least recently used entry that is not
pinned, or the least recently used one if all are pinned. The counters of `GraphCacheMetrics` that
the cache writes are part of the state here.
-/

import ContextMemory.Lib.SortedMap
import Mathlib.Data.List.MinMax
import Mathlib.Data.String.Basic

namespace ContextMemory.Cache

def usizeMax : Nat := 2 ^ 64 - 1

/-- `saturating_add` of a `usize` or a `u64`. -/
def saturatingAdd (a b : Nat) : Nat := min (a + b) usizeMax

structure CacheEntry (V : Type) where
  value : V
  tenant : String
  pinned : Bool
  lastAccess : Nat
  residentBytes : Nat
deriving DecidableEq, Repr

structure GraphCacheMetrics where
  insertions : Nat
  pinnedInsertions : Nat
  evictions : Nat
  tenantQuotaRejections : Nat
deriving DecidableEq, Repr

structure BoundedGraphCache (K V : Type) where
  maxEntries : Nat
  maxResidentBytes : Nat
  residentBytes : Nat
  maxEntriesPerTenant : Option Nat
  clock : Nat
  entries : List (K × CacheEntry V)
  tenantEntries : List (String × Nat)
  metrics : GraphCacheMetrics
deriving DecidableEq, Repr

namespace BoundedGraphCache

variable {K V : Type} [LinearOrder K]

/-- `new_with_byte_limit`; `new` has the limit `usize::MAX`. -/
def newWithByteLimit (maxEntries : Nat) (maxEntriesPerTenant : Option Nat)
    (maxResidentBytes : Nat) : BoundedGraphCache K V :=
  ⟨maxEntries, maxResidentBytes, 0, maxEntriesPerTenant, 0, [], [], ⟨0, 0, 0, 0⟩⟩

/-- `decrement_tenant`, on the counts of the tenants. -/
def decrementTenant (tenant : String) (tenantEntries : List (String × Nat)) : List (String × Nat) :=
  match SortedMap.get tenant tenantEntries with
  | some count =>
      if count - 1 = 0 then SortedMap.erase tenant tenantEntries
      else SortedMap.insert tenant (count - 1) tenantEntries
  | none => tenantEntries

def remove (c : BoundedGraphCache K V) (key : K) : Option V × BoundedGraphCache K V :=
  match SortedMap.get key c.entries with
  | some entry =>
      (some entry.value,
        { c with
          entries := SortedMap.erase key c.entries
          residentBytes := c.residentBytes - entry.residentBytes
          tenantEntries := decrementTenant entry.tenant c.tenantEntries })
  | none => (none, c)

def get (c : BoundedGraphCache K V) (key : K) : Option V × BoundedGraphCache K V :=
  let ticked := { c with clock := saturatingAdd c.clock 1 }
  match SortedMap.get key c.entries with
  | some entry =>
      (some entry.value,
        { ticked with
          entries := SortedMap.modify key (fun e => { e with lastAccess := ticked.clock }) c.entries })
  | none => (none, ticked)

/-- `get_latest_by`. `max_by_key` takes the last of the entries with the highest score. -/
def getLatestBy (c : BoundedGraphCache K V) (predicate : K → V → Bool) (score : K → V → Nat) :
    Option V × BoundedGraphCache K V :=
  match (c.entries.filter fun e => predicate e.1 e.2.value).reverse.argmax
      fun e => score e.1 e.2.value with
  | some e => c.get e.1
  | none => (none, c)

def retain (c : BoundedGraphCache K V) (keep : K → V → Bool) : BoundedGraphCache K V :=
  ((c.entries.filter fun e => !keep e.1 e.2.value).map Prod.fst).foldl
    (fun c key => (c.remove key).2) c

/-- What `evict_one` may evict. -/
def candidates (c : BoundedGraphCache K V) (tenant : Option String) (allowPinned : Bool) :
    List (K × CacheEntry V) :=
  c.entries.filter fun e => tenant.all (fun name => name == e.2.tenant) && (allowPinned || !e.2.pinned)

/-- `evict_one`. -/
def evictOne (c : BoundedGraphCache K V) (tenant : Option String) (allowPinned : Bool) :
    Option (BoundedGraphCache K V) :=
  ((c.candidates tenant allowPinned).argmin fun e => e.2.lastAccess).map fun e =>
    let rest := (c.remove e.1).2
    { rest with metrics := { rest.metrics with evictions := rest.metrics.evictions + 1 } }

/-- A pinned entry is evicted only where no other one is left. -/
def evict (c : BoundedGraphCache K V) (tenant : Option String) : Option (BoundedGraphCache K V) :=
  (c.evictOne tenant false).or (c.evictOne tenant true)

/-- How many entries a tenant is said to have. -/
def countOf (tenantEntries : List (String × Nat)) (tenant : String) : Nat :=
  (SortedMap.get tenant tenantEntries).getD 0

def rejectTenant (c : BoundedGraphCache K V) : BoundedGraphCache K V :=
  { c with
    metrics := { c.metrics with tenantQuotaRejections := c.metrics.tenantQuotaRejections + 1 } }

/-- The loop of `enforce_tenant_quota`. Each round evicts an entry, so there are no more rounds than
entries. -/
def enforceTenantQuota (tenant : String) (limit : Nat) :
    Nat → BoundedGraphCache K V → BoundedGraphCache K V
  | 0, c => c
  | rounds + 1, c =>
      if limit < countOf c.tenantEntries tenant then
        match c.evict (some tenant) with
        | some rest => enforceTenantQuota tenant limit rounds rest
        | none => c.rejectTenant
      else c

/-- The loop of `enforce_total_limit`. -/
def enforceTotalLimit : Nat → BoundedGraphCache K V → BoundedGraphCache K V
  | 0, c => c
  | rounds + 1, c =>
      if c.maxEntries < c.entries.length ∨ c.maxResidentBytes < c.residentBytes then
        match c.evict none with
        | some rest => enforceTotalLimit rounds rest
        | none => c
      else c

/-- The part of `insert_sized` before the limits are enforced. -/
def put (c : BoundedGraphCache K V) (key : K) (value : V) (tenant : String) (pinned : Bool)
    (residentBytes : Nat) : BoundedGraphCache K V :=
  let clock := saturatingAdd c.clock 1
  let previous := (c.remove key).2
  { previous with
    clock := clock
    entries := SortedMap.insert key ⟨value, tenant, pinned, clock, residentBytes⟩ previous.entries
    residentBytes := saturatingAdd previous.residentBytes residentBytes
    tenantEntries :=
      SortedMap.insert tenant (countOf previous.tenantEntries tenant + 1) previous.tenantEntries
    metrics :=
      { previous.metrics with
        insertions := previous.metrics.insertions + 1
        pinnedInsertions := previous.metrics.pinnedInsertions + if pinned then 1 else 0 } }

/-- `insert_sized` behind `put`. -/
def enforce (c : BoundedGraphCache K V) (tenant : String) : BoundedGraphCache K V :=
  let within :=
    match c.maxEntriesPerTenant with
    | some limit => enforceTenantQuota tenant limit c.entries.length c
    | none => c
  enforceTotalLimit within.entries.length within

/-- `insert_sized`; `insert` is of size zero. -/
def insertSized (c : BoundedGraphCache K V) (key : K) (value : V) (tenant : String) (pinned : Bool)
    (residentBytes : Nat) : Option V × BoundedGraphCache K V :=
  if c.maxEntries = 0 then (none, c.rejectTenant)
  else ((c.put key value tenant pinned residentBytes).enforce tenant).get key

/-! ### Runs -/

inductive Op (K V : Type) where
  | get (key : K)
  | getLatestBy (predicate : K → V → Bool) (score : K → V → Nat)
  | insertSized (key : K) (value : V) (tenant : String) (pinned : Bool) (residentBytes : Nat)
  | retain (keep : K → V → Bool)
  | remove (key : K)

def step (c : BoundedGraphCache K V) : Op K V → Option V × BoundedGraphCache K V
  | .get key => c.get key
  | .getLatestBy predicate score => c.getLatestBy predicate score
  | .insertSized key value tenant pinned residentBytes =>
      c.insertSized key value tenant pinned residentBytes
  | .retain keep => (none, c.retain keep)
  | .remove key => c.remove key

/-- A new cache after a run of operations. -/
def run (maxEntries : Nat) (maxEntriesPerTenant : Option Nat) (maxResidentBytes : Nat)
    (ops : List (Op K V)) : BoundedGraphCache K V :=
  ops.foldl (fun c op => (c.step op).2)
    (newWithByteLimit maxEntries maxEntriesPerTenant maxResidentBytes)

end BoundedGraphCache

end ContextMemory.Cache
