import Bpy.Commands
import Bpy.GcMarkExact
import Bpy.GcSweepServer

/-!
# A whole collection

`gc.GC` marks what the root refers to and then sweeps the packs. Any call may fail, others
may add packs, and a collection may end anywhere.
-/
namespace Bpy.GcCollect
open ByteWords InteractionPrograms ContentStore HashTreeWriter HashTreeStreams ObjectGraph PackFile PackRuns GcMark
open GcSweep Commands ProgramLogic Method GcMarkExact GcSweepSafety GcSweepServer GcSweepRule

section Collection

variable (sha256 : Bytes → Hash) (Enc : Hash → Bytes → Prop)

/-- What others do to the packs, whatever is going to be visited. -/
def Grown (s s' : Server) : Prop := ∀ visited, Others Enc visited s s'

/-- How the calls are answered if the store has `chunks` and the drive has the root `root`. -/
def answered (chunks : List Bytes) (root : Hash) (s : Server) : (q : CmdRequest) → q.Response → Server → Prop
  | .getRoot, r, s' => Grown Enc s s' ∧ ∀ hash version, r = .ok (hash, version) → hash = some root
  | .store _ q, r, s' => Grown Enc s s' ∧ ∃ chunks', storeWorld sha256 True chunks q r chunks'
  | .sweep q, r, s' => ∃ s₁, Grown Enc s s₁ ∧ Answer Enc s₁ q r s'
  | _, _, s' => Grown Enc s s'

/-- A pack has a value for the hash. -/
def Kept (s : Server) (h : Hash) : Prop :=
  ∃ n P e, s.packs.lookup n = some P ∧ e ∈ P.idx ∧ e.key = h.bytes ∧ Enc h (P.value e)

/-- The packs are as they were written, and have what is needed. -/
structure Complete (needed : Hash → Prop) (s : Server) : Prop where
  honest : ∀ n P, s.packs.lookup n = some P → ∀ visited, WellFormed Enc visited P
  kept : ∀ h, needed h → Kept Enc s h

/-- A pack is removed only if what is needed is in other packs. -/
def Careful (needed : Hash → Prop) (s : Server) (q : CmdRequest) : Prop :=
  ∀ n epoch, q = .sweep (.remove n epoch) → ∀ h, needed h → ∃ m ≠ n, Good (world Enc []) s m h

variable {sha256 Enc} {chunks : List Bytes} {root : Hash} {needed : Hash → Prop} {s s' : Server}

variable (room : ℕ → ℕ) {byOffset : Index → Index} {ω : Type} {w : ω}

end Collection

section SmallDrive

/-- A value that is not empty is its own encoding. -/
def Plain (h : Hash) (v : Bytes) : Prop := v ≠ [] ∧ frontHash v = h

end SmallDrive

end Bpy.GcCollect
