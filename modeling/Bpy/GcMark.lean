import Bpy.ObjectGraph

/-!
# The mark phase of `gc`

The receiver is the set of visited hashes. The recursions of the source have no bound
of their own; here a call may nest as deep as its first argument says, and a deeper one
overflows the stack.
-/
namespace Bpy.GcMark
open ByteWords InteractionPrograms ContentStore HashTreeWriter
open References Directories

abbrev MarkM (α : Type) := StoreM (List Hash) α

def visit (hash : Hash) : MarkM Unit := Method.update (fun visited => hash :: visited)

/-- The loop over the entries of a node. Every round takes 40 bytes. -/
def forEntries (f : Hash → MarkM Unit) : ℕ → Bytes → MarkM Unit
  | 0, _ => pure ()
  | rounds + 1, body =>
    if body = [] then pure ()
    else if body.length < 40 then goPanic "slice bounds out of range"
    else do
      f (Hash.copy ((body.drop 8).take 32))
      forEntries f rounds (body.drop 40)

def markHTree : ℕ → Hash → MarkM Unit
  | 0, _ => goPanic "stack overflow"
  | n + 1, root => do
    let visited ← Method.self
    if root ∈ visited then
      pure ()
    else
      let data ← get root
      match data with
      | [] => goPanic "index out of range"
      | lvl :: body =>
        if lvl = 0 then
          visit root
        else
          forEntries (fun hash => do
            if lvl = 1 then visit hash else pure ()
            markHTree n hash) body.length body
          visit root

/-- The tree of an entry. With depth 0 it is a single leaf, which need not be read. -/
def markEntTree (markTree : Hash → MarkM Unit) (tree : HTree) : MarkM Unit :=
  if tree.depth = 0 then visit tree.data else markTree tree.data

def markEnts (markDir markTree : Hash → MarkM Unit) : List DirEnt → MarkM Unit
  | [] => pure ()
  | e :: ents => do
    if e.isDir then markDir e.htree.data else pure ()
    markEntTree markTree e.htree
    markEnts markDir markTree ents

section

variable (room : ℕ → ℕ)

def markFsDir : ℕ → Hash → MarkM Unit
  | 0, _ => goPanic "stack overflow"
  | n + 1, root => do
    markHTree n root
    let dirEnts ← readDir room root
    markEnts (markFsDir n) (markHTree n) dirEnts.tail

def markRef : ℕ → Hash → MarkM Unit
  | 0, _ => goPanic "stack overflow"
  | n + 1, hash => do
    markHTree n hash
    let ref ← getRef room hash
    markFsDir room n ref.root
    if ref.hasPrev then markRef n ref.prev else pure ()

end

end Bpy.GcMark
