import Bpy.ContentStore
import Bpy.LinkedRings
import Mathlib.Data.List.AList
import Mathlib.Data.List.Sort

/-!
# `cstore/cache`

Cached chunks are in a bucket of a database. The cache lists them in the order of their
last use, and collects puts and deletes that the database does not have yet. The nodes of
the list are at addresses, with the root at address `0`. Sizes are `uint64` values. The
database is a map whose transactions succeed, and byte slices are values: nobody changes
a chunk in place.
-/
namespace Bpy.ChunkCache
open ByteWords ContentStore LinkedRings

structure LruListEnt where
  hash : Hash
  size : ℕ

/-- `links` are the fields `Next` and `Prev` of all nodes, and `fresh` is the address of the
next node to be allocated. -/
structure LruList where
  links : Links ℕ
  ents : ℕ → LruListEnt
  fresh : ℕ
  len : ℤ

namespace LruList

def init : LruList where
  links := ⟨fun a => if a = 0 then some 0 else none, fun a => if a = 0 then some 0 else none⟩
  ents := fun _ => ⟨Hash.zero, 0⟩
  fresh := 1
  len := 0

def nilDeref : GoError := .panic "invalid memory address or nil pointer dereference"

def back (l : LruList) : Option ℕ := if l.len = 0 then none else l.links.prev 0

def pushFront (l : LruList) (hash : Hash) (size : ℕ) : Except GoError (ℕ × LruList) :=
  match l.links.insertAfter 0 l.fresh with
  | none => .error nilDeref
  | some links => .ok (l.fresh, { l with
      links := links
      ents := Function.update l.ents l.fresh ⟨hash, size⟩
      fresh := l.fresh + 1
      len := l.len + 1 })

def remove (l : LruList) (toRemove : ℕ) : Except GoError LruList :=
  match l.links.unlink toRemove with
  | none => .error nilDeref
  | some links => .ok { l with links := links, len := l.len - 1 }

def moveToFront (l : LruList) (toMove : ℕ) : Except GoError LruList :=
  match l.remove toMove with
  | .error e => .error e
  | .ok l =>
    match l.links.insertAfter 0 toMove with
    | none => .error nilDeref
    | some links => .ok { l with links := links, len := l.len + 1 }

end LruList

abbrev Bucket := AList (fun _ : Hash => Bytes)

structure Cache where
  db : Bucket
  size : ℕ
  maxSize : ℕ
  lruMap : AList (fun _ : Hash => ℕ)
  lruList : LruList
  pendingPut : AList (fun _ : Hash => Bytes)
  pendingDel : AList (fun _ : Hash => Unit)

def addUint64 (a b : ℕ) : ℕ := (a + b) % 2 ^ 64

def subUint64 (a b : ℕ) : ℕ := (a + 2 ^ 64 - b) % 2 ^ 64

/-- The pairs of a bucket in the order of `ForEach`. -/
def forEach (b : Bucket) : List (Hash × Bytes) :=
  (b.entries.map (fun e => (e.1, e.2))).insertionSort (fun x y => x.1.bytes ≤ y.1.bytes)

/-- `PushFront` with the update of map and size. -/
def Cache.push (c : Cache) (hash : Hash) (val : Bytes) : Except GoError Cache :=
  match c.lruList.pushFront hash val.length with
  | .error e => .error e
  | .ok (elem, l) => .ok { c with
      lruList := l
      lruMap := c.lruMap.insert hash elem
      size := addUint64 c.size val.length }

def Cache.pushAll : List (Hash × Bytes) → Cache → Except GoError Cache
  | [], c => .ok c
  | e :: es, c =>
    match c.push e.1 e.2 with
    | .error err => .error err
    | .ok c => c.pushAll es

/-- `NewCache` on a database with the bucket `db`. -/
def newCache (db : Bucket) (maxSize : ℕ) : Except GoError Cache :=
  Cache.pushAll (forEach db) ⟨db, 0, maxSize, ∅, LruList.init, ∅, ∅⟩

/-- A hash that the bucket does not have gives an empty slice. -/
def Cache.get (c : Cache) (hash : Hash) : Except GoError (Option Bytes) × Cache :=
  match c.lruMap.lookup hash with
  | none => (.ok none, c)
  | some elem =>
    match c.lruList.moveToFront elem with
    | .error e => (.error e, c)
    | .ok l =>
      let c := { c with lruList := l }
      match c.pendingPut.lookup hash with
      | some ret => (.ok (some ret), c)
      | none => (.ok (some ((c.db.lookup hash).getD [])), c)

def Cache.dropBack (c : Cache) (elem : ℕ) : Except GoError Cache :=
  match c.lruList.remove elem with
  | .error e => .error e
  | .ok l =>
    let ent := c.lruList.ents elem
    .ok { c with
      lruList := l
      size := subUint64 c.size ent.size
      lruMap := c.lruMap.erase ent.hash
      pendingPut := c.pendingPut.erase ent.hash
      pendingDel := c.pendingDel.insert ent.hash () }

/-- The loop of `Put` that makes room for `len` bytes. Every round shortens the list. -/
def Cache.evict (len : ℕ) : ℕ → Cache → Except GoError Unit × Cache
  | 0, c => (.error (.panic "out of rounds"), c)
  | rounds + 1, c =>
    if addUint64 c.size len > c.maxSize then
      if c.lruList.len = 0 then (.error (.text "value too large for cache"), c)
      else match c.lruList.back with
        | none => (.error LruList.nilDeref, c)
        | some elem =>
          match c.dropBack elem with
          | .error e => (.error e, c)
          | .ok c => c.evict len rounds
    else (.ok (), c)

/-- The transaction of `flushPending`. -/
def Cache.flushPending (c : Cache) : Cache :=
  let db := c.pendingPut.entries.foldl (fun b e => b.insert e.1 e.2) c.db
  { c with
    db := c.pendingDel.keys.foldl (fun b k => b.erase k) db
    pendingPut := ∅
    pendingDel := ∅ }

def Cache.put (c : Cache) (hash : Hash) (val : Bytes) : Except GoError Unit × Cache :=
  match c.lruMap.lookup hash with
  | some _ => (.ok (), c)
  | none =>
    match c.evict val.length (c.lruList.len.toNat + 1) with
    | (.error e, c) => (.error e, c)
    | (.ok (), c) =>
      match c.push hash val with
      | .error e => (.error e, c)
      | .ok c =>
        let c := { c with
          pendingPut := c.pendingPut.insert hash val
          pendingDel := c.pendingDel.erase hash }
        if c.pendingDel.keys.length > 10000 ∨ c.pendingPut.keys.length > 10000 then
          (.ok (), c.flushPending)
        else (.ok (), c)

/-- `Close`; what is left is the bucket. -/
def Cache.close (c : Cache) : Bucket := c.flushPending.db

end Bpy.ChunkCache
