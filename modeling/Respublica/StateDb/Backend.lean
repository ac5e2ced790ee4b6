import Mathlib.Algebra.Order.Ring.Int
import Std.Data.ExtTreeMap
import Std.Data.ExtTreeSet
import Respublica.Crypto.Hash

/-!
# Map backends

A backend is the ordered map a delta stores its objects in, with the metadata of
the node it belongs to. Its `put` and `remove` report by how many bytes the stored
keys and values have grown; all sizes of the accounting are signed.
-/

namespace Respublica.StateDb

open Foundation Crypto

/-- The id of a state node; block nodes use the block's id. -/
abbrev StateNodeId := SizedBytes 32

/-- The id of the genesis node, and the parent id of a root. -/
def nullId : StateNodeId := SizedBytes.zero 32

/-- Why a routine did not return: an exception with its text, a null pointer or an
erased iterator that was followed, a loop that never ends, a failed `assert`, an
exception that met a `noexcept` boundary, or memory that does not belong to an instance. -/
inductive Fault where
  | exception (what : String)
  | nullDereference
  | useAfterErase
  | diverges
  | assertion
  | terminate
  | outOfBounds
deriving DecidableEq

/-- Stored objects in key order. -/
abbrev Objects := Std.ExtTreeMap Bytes Bytes

/-- Keys in order. -/
abbrev Keys := Std.ExtTreeSet Bytes

/-- The `map_backend` with the fields of its base class. -/
structure Backend where
  map : Objects
  id : StateNodeId
  revision : UInt64
  merkleRoot : Digest

namespace Backend

/-- A backend without objects. -/
def create (id : StateNodeId) (revision : UInt64) : Backend :=
  ⟨∅, id, revision, SizedBytes.zero 32⟩

/-- The bytes an object occupies: its key and its value. -/
def objectSize (key value : Bytes) : Int := key.length + value.length

def get (backend : Backend) (key : Bytes) : Option Bytes := backend.map[key]?

/-- The signed growth that storing `value` under `key` reports. -/
def putSize (backend : Backend) (key value : Bytes) : Int :=
  match backend.get key with
  | some old => value.length - old.length
  | none => value.length + key.length

def put (backend : Backend) (key value : Bytes) : Backend :=
  { backend with map := backend.map.insert key value }

/-- The signed growth that removing `key` reports. -/
def removeSize (backend : Backend) (key : Bytes) : Int :=
  match backend.get key with
  | some old => - objectSize key old
  | none => 0

def remove (backend : Backend) (key : Bytes) : Backend :=
  { backend with map := backend.map.erase key }

@[simp] theorem get_create (id : StateNodeId) (revision : UInt64) (key : Bytes) :
    (create id revision).get key = none := by
  simp [create, get]

theorem get_put (backend : Backend) (key value other : Bytes) :
    (backend.put key value).get other = if other = key then some value else backend.get other := by
  simp [get, put, Std.ExtTreeMap.getElem?_insert, @eq_comm _ key other]

theorem get_remove (backend : Backend) (key other : Bytes) :
    (backend.remove key).get other = if other = key then none else backend.get other := by
  simp [get, remove, Std.ExtTreeMap.getElem?_erase, @eq_comm _ key other]

@[simp] theorem id_put (backend : Backend) (key value : Bytes) :
    (backend.put key value).id = backend.id := rfl

@[simp] theorem revision_put (backend : Backend) (key value : Bytes) :
    (backend.put key value).revision = backend.revision := rfl

@[simp] theorem id_remove (backend : Backend) (key : Bytes) :
    (backend.remove key).id = backend.id := rfl

@[simp] theorem revision_remove (backend : Backend) (key : Bytes) :
    (backend.remove key).revision = backend.revision := rfl

end Backend

end Respublica.StateDb
