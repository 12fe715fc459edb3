/-
  DnsCache of shared_mutex.cpp, step by step.

  `entries` is a map from domains to entries. find_entry looks the domain up under a shared
  lock, tests the iterator against end() and copies what it points to; `entries[domain] =
  dns_info` under the exclusive lock first inserts a default entry where the domain is
  absent and then assigns. The locks are released when the function returns, so the copy of
  a reader is made before its release.

  An iterator records the key it points to and the `version` of the map it was made from;
  every change of the map makes a new version. An iterator to an element that is not there
  cannot be dereferenced: that is undefined and has no step.
-/
import CppConcurrency.Lib.Lts
import CppConcurrency.Lib.Linearize
import CppConcurrency.Lib.SharedMutex

namespace CppConcurrency.DnsCache

open Concur

/-- The two operations on a cache with domains `K` and entries `V`. -/
inductive Op (K V : Type*) where
  | find (domain : K)
  | update (domain : K) (dns_info : V)
  deriving DecidableEq, Repr

/-- What an operation gives back. -/
inductive Ret (V : Type*) where
  | entry (v : V)
  | void
  deriving DecidableEq, Repr

/-- An iterator: the element it points to (end() points to none), and the version of the map
    that it was taken from. -/
structure Iter (K : Type*) where
  key : Option K
  version : ℕ
  deriving DecidableEq, Repr

/-- Where a thread stands. -/
inductive Pc (K V : Type*) where
  | idle
  | readLock (domain : K)
  | find (domain : K)
  | test (domain : K) (it : Iter K)
  | copy (domain : K) (it : Iter K)
  | readUnlock (domain : K) (v : V)
  | writeLock (domain : K) (dns_info : V)
  | insert (domain : K) (dns_info : V)
  | assign (domain : K) (dns_info : V)
  | writeUnlock (domain : K) (dns_info : V)

/-- A state of the cache and its callers. -/
structure St (ι K V : Type*) where
  pc : ι → Pc K V
  entry_mutex : SharedMutex ι
  entries : K → Option V
  version : ℕ
  hist : List (Event ι (Op K V) (Ret V))

/-- Who moves: a thread calls an operation, or takes its next step. -/
inductive Act (ι K V : Type*) where
  | call (t : ι) (op : Op K V)
  | run (t : ι)
  deriving DecidableEq, Repr

variable {ι K V : Type*}

/-- The first step of an operation. -/
def entryPoint : Op K V → Pc K V
  | .find d => .readLock d
  | .update d v => .writeLock d v

/-- The operation a thread is in. -/
def Pc.op : Pc K V → Option (Op K V)
  | .idle => none
  | .readLock d => some (.find d)
  | .find d => some (.find d)
  | .test d _ => some (.find d)
  | .copy d _ => some (.find d)
  | .readUnlock d _ => some (.find d)
  | .writeLock d v => some (.update d v)
  | .insert d v => some (.update d v)
  | .assign d v => some (.update d v)
  | .writeUnlock d v => some (.update d v)

/-- How a thread holds `entry_mutex`. -/
def Pc.mode : Pc K V → Option Mode
  | .find _ => some .shared
  | .test _ _ => some .shared
  | .copy _ _ => some .shared
  | .readUnlock _ _ => some .shared
  | .insert _ _ => some .exclusive
  | .assign _ _ => some .exclusive
  | .writeUnlock _ _ => some .exclusive
  | _ => none

variable [DecidableEq ι] [DecidableEq K]

/-- `entries[domain]` where the domain may be absent: a default entry is inserted. -/
def insertDefault [Inhabited V] (m : K → Option V) (d : K) : K → Option V :=
  Function.update m d (some ((m d).getD default))

/-- `entries.find(domain)` -/
def lookup (s : St ι K V) (d : K) : Iter K :=
  ⟨if (s.entries d).isSome then some d else none, s.version⟩

/-- The next step of `t`. -/
def run [Inhabited V] (s : St ι K V) (t : ι) : Option (St ι K V) :=
  match s.pc t with
  | .idle => none
  | .readLock d =>
      (s.entry_mutex.lockShared t).map fun m =>
        { s with pc := Function.update s.pc t (.find d), entry_mutex := m }
  | .find d => some { s with pc := Function.update s.pc t (.test d (lookup s d)) }
  | .test d it =>
      let next := if it.key.isNone then .readUnlock d default else .copy d it
      some { s with pc := Function.update s.pc t next }
  | .copy d it =>
      (it.key.bind s.entries).map fun v =>
        { s with pc := Function.update s.pc t (.readUnlock d v) }
  | .readUnlock _ v =>
      some { s with
        pc := Function.update s.pc t .idle
        entry_mutex := s.entry_mutex.unlockShared t
        hist := s.hist ++ [.res t (.entry v)] }
  | .writeLock d v =>
      (s.entry_mutex.lock t).map fun m =>
        { s with pc := Function.update s.pc t (.insert d v), entry_mutex := m }
  | .insert d v =>
      some { s with
        pc := Function.update s.pc t (.assign d v)
        entries := insertDefault s.entries d
        version := s.version + 1 }
  | .assign d v =>
      some { s with
        pc := Function.update s.pc t (.writeUnlock d v)
        entries := Function.update s.entries d (some v)
        version := s.version + 1 }
  | .writeUnlock _ _ =>
      some { s with
        pc := Function.update s.pc t .idle
        entry_mutex := s.entry_mutex.unlock
        hist := s.hist ++ [.res t .void] }

def step [Inhabited V] (s : St ι K V) : Act ι K V → Option (St ι K V)
  | .call t op =>
      if s.pc t matches .idle then
        some { s with
          pc := Function.update s.pc t (entryPoint op)
          hist := s.hist ++ [.inv t op] }
      else none
  | .run t => run s t

/-- An empty cache that nobody uses. -/
def initial : St ι K V where
  pc _ := .idle
  entry_mutex := .free
  entries _ := none
  version := 0
  hist := []

def sys [Inhabited V] : Lts (St ι K V) (Act ι K V) where
  init s := s = initial
  step := step

/-! ## The sequential cache -/

/-- A map: find gives the entry or a default one, and update sets it. -/
def mapSpec [Inhabited V] : SeqSpec (K → Option V) (Op K V) (Ret V) where
  init _ := none
  apply m op :=
    match op with
    | .find d => some (m, .entry ((m d).getD default))
    | .update d v => some (Function.update m d (some v), .void)

/-- What an operation writes for `d`: updates of other domains write nothing for it. -/
def written (d : K) : Op K V × Ret V → Option V
  | (.find _, _) => none
  | (.update d' v, _) => if d' = d then some v else none

/-- The value of the last update of `d`. -/
def lastWritten (d : K) (os : List (Op K V × Ret V)) : Option V :=
  (os.filterMap (written d)).getLast?

end CppConcurrency.DnsCache
