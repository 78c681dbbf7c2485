import ThreadedCode.Dictionary.Bucket
import ThreadedCode.Dictionary.Entry

/-!
The dictionary: a table of buckets that only grows. The entries of a bucket form a chain, oldest
first, which runs through the entry records themselves.
-/
namespace ThreadedCode

structure Bucket where
  size : Nat
  oldest : Option EntryId
  newest : Option EntryId
deriving DecidableEq, Repr

def Bucket.empty : Bucket := ⟨0, none, none⟩

structure Dictionary where
  buckets : Vector Bucket Dictionary.bucketCount
  mode : Mode
  /-- The number of definitions. -/
  count : Nat
deriving DecidableEq, Repr

namespace Dictionary

def empty (mode : Mode) : Dictionary := ⟨Vector.replicate bucketCount .empty, mode, 0⟩

def isEmpty (d : Dictionary) : Bool := d.count == 0

/-- The number of entries in a bucket. -/
def bucketSize (d : Dictionary) (index : Nat) : Nat :=
  match d.buckets[index]? with
  | some bucket => bucket.size
  | none => 0

/-- The entry that was put last into a bucket. -/
def newest (d : Dictionary) (index : Fin bucketCount) : Option EntryId := d.buckets[index].newest

/-- Makes an entry the newest of its bucket. -/
def append (d : Dictionary) (index : Fin bucketCount) (entry : EntryId) : Dictionary :=
  let bucket := d.buckets[index]
  let oldest := if bucket.newest.isSome then bucket.oldest else some entry
  let bucket : Bucket := ⟨bucket.size + 1, oldest, some entry⟩
  { d with buckets := d.buckets.set index bucket, count := d.count + 1 }

/-- Whether a stored name answers a query. -/
def answers (mode : Mode) (query name : List UInt8) : Bool :=
  match mode with
  | .compatible => query.isPrefixOf name
  | .strict => name == query

/-- Follows a chain for at most `hops` entries. `found` is the best answer so far: in compatible
mode the first match ends the search, in strict mode a later match replaces it. -/
def follow (bytes : ByteArena) (mode : Mode) (query : List UInt8) :
    (hops : Nat) → (cursor found : Option EntryId) → Except Fault (Option EntryId)
  | 0, _, found => return found
  | _ + 1, none, found => return found
  | hops + 1, some id, found => do
    let name ← Entry.nameBytes bytes id
    match answers mode query name, mode with
    | true, .compatible => return some id
    | true, .strict => follow bytes mode query hops (← Entry.next? bytes id) (some id)
    | false, _ => follow bytes mode query hops (← Entry.next? bytes id) found

/-- Resolves a name to an entry. -/
def search (d : Dictionary) (bytes : ByteArena) (query : List UInt8) : Except Fault EntryId := do
  let bucket := d.buckets[bucketOf d.mode query]
  match ← follow bytes d.mode query bucket.size bucket.oldest none with
  | some entry => return entry
  | none => throw .notFound

end Dictionary
end ThreadedCode
