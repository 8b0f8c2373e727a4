import Bpy.FileTrees
import Bpy.HashTreeStates

/-!
# `fs.FileReader`

A reader of a file keeps an offset of its own beside the one of its tree reader. `Seek`
converts the signed offset to `uint64`, and gives it to the tree reader as it is. What
the tree reader returns is the new offset, also when it is the `0` that comes with an
error.
-/
namespace Bpy.FileReaders
open ByteWords InteractionPrograms ContentStore HashTreeReader
open HashTreeStates Directories FileTrees Method

structure FileReader where
  offset : ℕ
  fsize : Int64
  rdr : Reader

abbrev FileM (α : Type) := StoreM FileReader α

/-- A call of a method of `r.rdr`. -/
def onReader {α : Type} (x : ReaderM α) : FileM α :=
  within FileReader.rdr (fun r rdr => { r with rdr }) x

/-- `Open`. -/
def openFile {ω : Type} (room : ℕ → ℕ) (roothash : Hash) (fpath : Bytes) : StoreM ω FileReader := do
  let dirent ← walk room roothash fpath
  if dirent.isDir then
    raise (.format "%s is a directory" fpath)
  else
    let rdr ← newReader dirent.htree.data
    pure ⟨0, dirent.entSize, rdr⟩

/-- The offset that `Seek` passes on, for `io.SeekStart`, `io.SeekCurrent` and `io.SeekEnd`. -/
def FileReader.target (r : FileReader) (off : Int64) : ℤ → Option ℕ
  | 0 => some off.toUInt64.toNat
  | 1 => some ((r.offset + off.toUInt64.toNat) % 2 ^ 64)
  | 2 => some (r.fsize + off).toUInt64.toNat
  | _ => none

/-- `o, err := r.rdr.Seek(off)`, where `o` is `0` if there is an error. -/
def seekTo (off : ℕ) : FileM (ℤ × Option GoError) := do
  match ← catchError (onReader (HashTreeReader.seek off)) with
  | .ok o =>
    update (fun r => { r with offset := o })
    pure (int64 o, none)
  | .error e =>
    update (fun r => { r with offset := 0 })
    pure (0, some e)

def seek (off : Int64) (whence : ℤ) : FileM (ℤ × Option GoError) := do
  let r ← self
  match r.target off whence with
  | some o => seekTo o
  | none => pure (int64 r.offset, some (.format "bad whence %d" (ascii (toString whence))))

/-- `Read` with a buffer of `n` bytes. The number of bytes is `0` if there is an error. -/
def read (n : ℕ) : FileM Bytes := do
  let out ← onReader (HashTreeReader.read n)
  update (fun r => { r with offset := (r.offset + out.length) % 2 ^ 64 })
  pure out

/-- `io.ReadFull`, when `n` bytes are missing and `acc` has been read. Every round reads at least
one byte. -/
def readFullLoop : ℕ → ℕ → Bytes → FileM (Bytes × Option GoError)
  | 0, n, acc => if n = 0 then pure (acc, none) else goPanic "out of rounds"
  | rounds + 1, n, acc =>
    if n = 0 then pure (acc, none)
    else do
      match ← catchError (read n) with
      | .ok out => readFullLoop rounds (n - out.length) (acc ++ out)
      | .error e => pure (acc, some (if e = .eof ∧ acc ≠ [] then .unexpectedEOF else e))

/-- `ReadAt` with a buffer of `n` bytes. -/
def readAt (n : ℕ) (off : Int64) : FileM (Bytes × Option GoError) := do
  let r ← self
  if r.offset ≠ off.toUInt64.toNat then
    let (_, err) ← seek off 0
    if err.isSome then pure ([], err) else readFullLoop n n []
  else
    readFullLoop n n []

theorem target_lt {r : FileReader} {off : Int64} {whence : ℤ} {o : ℕ} (h : r.target off whence = some o) :
    o < 2 ^ 64 := by
  unfold FileReader.target at h
  split at h
  · obtain rfl := Option.some.inj h
    exact UInt64.toNat_lt _
  · obtain rfl := Option.some.inj h
    exact Nat.mod_lt _ (by decide)
  · obtain rfl := Option.some.inj h
    exact UInt64.toNat_lt _
  · simp at h

variable {σ α : Type} {hd : Handler σ} {s : σ} {r : FileReader} {I : σ → Prop} {stored : Hash → Bytes → Prop}
  {d : Bytes}

section Calls

variable {s' : σ} {r' : FileReader} {rdr' : Reader} {off o n : ℕ} {e : GoError}

theorem exec_onReader (x : ReaderM α) : exec hd (onReader x) r s =
    ((exec hd x r.rdr s).1, { r with rdr := (exec hd x r.rdr s).2.1 },
      (exec hd x r.rdr s).2.2) := exec_within hd _ _ x r s

theorem exec_seekTo_ok (h : exec hd (HashTreeReader.seek off) r.rdr s = (.ok o, rdr', s')) :
    exec hd (seekTo off) r s = (.ok (int64 o, none), ⟨o, r.fsize, rdr'⟩, s') := by
  have hcall : exec hd (onReader (HashTreeReader.seek off)) r s = (.ok o, { r with rdr := rdr' }, s') := by
    rw [exec_onReader, h]
  rw [seekTo, exec_bind_ok _ (exec_catchError_ok hcall)]
  rfl

theorem exec_seekTo_error (h : exec hd (HashTreeReader.seek off) r.rdr s = (.error e, rdr', s'))
    (he : ∀ msg, e ≠ .panic msg) : exec hd (seekTo off) r s = (.ok (0, some e), ⟨0, r.fsize, rdr'⟩, s') := by
  have hcall : exec hd (onReader (HashTreeReader.seek off)) r s = (.error e, { r with rdr := rdr' }, s') := by
    rw [exec_onReader, h]
  rw [seekTo, exec_bind_ok _ (exec_catchError_error hcall he)]
  rfl

theorem exec_seekTo_panic {msg : String}
    (h : exec hd (HashTreeReader.seek off) r.rdr s = (.error (.panic msg), rdr', s')) :
    exec hd (seekTo off) r s = (.error (.panic msg), { r with rdr := rdr' }, s') := by
  have hcall : exec hd (onReader (HashTreeReader.seek off)) r s =
      (.error (.panic msg), { r with rdr := rdr' }, s') := by
    rw [exec_onReader, h]
  rw [seekTo, exec_bind_error _ (exec_catchError_panic hcall)]

theorem exec_read : exec hd (read n) r s = match exec hd (HashTreeReader.read n) r.rdr s with
    | (.ok out, rdr', s') => (.ok out, ⟨(r.offset + out.length) % 2 ^ 64, r.fsize, rdr'⟩, s')
    | (.error e, rdr', s') => (.error e, { r with rdr := rdr' }, s') := by
  rw [read, exec_bind, exec_onReader]
  rcases exec hd (HashTreeReader.read n) r.rdr s with ⟨res, rdr', s'⟩
  cases res <;> rfl

end Calls

section Standing

variable {β : Type}

/-- The call does not lead out of the tree, if it comes back. -/
def Keeping (hd : Handler σ) (I : σ → Prop) (stored : Hash → Bytes → Prop) (d : Bytes) (x : FileM α) : Prop :=
  ∀ r s, I s → Standing stored d r.rdr → Returns (exec hd x r s).1 →
    I (exec hd x r s).2.2 ∧ Standing stored d (exec hd x r s).2.1.rdr

theorem Keeping.bind {x : FileM α} {f : α → FileM β} (hx : Keeping hd I stored d x)
    (hf : ∀ a, Keeping hd I stored d (f a)) : Keeping hd I stored d (x >>= f) := by
  intro r s hI h hret
  have hfirst := hx r s hI h
  rw [exec_bind] at hret ⊢
  rcases hrun : exec hd x r s with ⟨res, r₁, s₁⟩
  rw [hrun] at hret hfirst
  cases res with
  | ok a =>
    obtain ⟨hI₁, h₁⟩ := hfirst (fun _ => nofun)
    exact hf a r₁ s₁ hI₁ h₁ hret
  | error e => exact hfirst (fun msg herr => hret msg (by rw [Except.error.inj herr]))

theorem keeping_pure (a : α) : Keeping hd I stored d (pure a : FileM α) := fun _ _ hI h _ => ⟨hI, h⟩

theorem keeping_self : Keeping hd I stored d (self : FileM FileReader) := fun _ _ hI h _ => ⟨hI, h⟩

theorem keeping_raise (e : GoError) : Keeping hd I stored d (raise e : FileM α) :=
  fun _ _ hI h _ => ⟨hI, h⟩

theorem keeping_setOffset (f : FileReader → ℕ) :
    Keeping hd I stored d (update (fun r => { r with offset := f r })) := fun _ _ hI h _ => ⟨hI, h⟩

theorem Keeping.catchError {x : FileM α} (hx : Keeping hd I stored d x) : Keeping hd I stored d (catchError x) := by
  intro r s hI h hret
  have hcall := hx r s hI h
  rcases hrun : exec hd x r s with ⟨res, r₁, s₁⟩
  rw [hrun] at hcall
  cases res with
  | ok a =>
    rw [exec_catchError_ok hrun]
    exact hcall (fun _ => nofun)
  | error e =>
    by_cases he : ∃ msg, e = .panic msg
    · obtain ⟨msg, rfl⟩ := he
      rw [exec_catchError_panic hrun] at hret
      exact absurd rfl (hret msg)
    · have he' : ∀ msg, e ≠ .panic msg := fun msg hmsg => he ⟨msg, hmsg⟩
      rw [exec_catchError_error hrun he']
      exact hcall (fun msg herr => he' msg (Except.error.inj herr))

variable (hst : Faulty hd I stored)
include hst

theorem keeping_seekTo (hlen : d.length < 2 ^ 64) {off : ℕ} (hoff : off < 2 ^ 64) :
    Keeping hd I stored d (seekTo off) := by
  have hcall : Keeping hd I stored d (onReader (HashTreeReader.seek off)) := by
    intro r s hI h hret
    rw [exec_onReader] at hret ⊢
    exact h.seek hst hI hlen hoff rfl hret
  refine hcall.catchError.bind (fun res => ?_)
  cases res with
  | ok o => exact (keeping_setOffset _).bind (fun _ => keeping_pure _)
  | error e => exact (keeping_setOffset _).bind (fun _ => keeping_pure _)

theorem keeping_seek (hlen : d.length < 2 ^ 64) (off : Int64) (whence : ℤ) :
    Keeping hd I stored d (seek off whence) := by
  refine keeping_self.bind (fun r => ?_)
  cases ho : r.target off whence with
  | some o => exact keeping_seekTo hst hlen (target_lt ho)
  | none => exact keeping_pure _

theorem keeping_read (n : ℕ) : Keeping hd I stored d (read n) := by
  have hcall : Keeping hd I stored d (onReader (HashTreeReader.read n)) := by
    intro r s hI h hret
    rw [exec_onReader] at hret ⊢
    by_cases hpos : 0 ≤ r.rdr.pos 0
    · exact h.read n hst hI hpos rfl
    · obtain ⟨msg, hrun⟩ := read_negative hd s n (not_le.mp hpos)
      exact absurd (congrArg Prod.fst hrun) (hret msg)
  exact hcall.bind (fun out => (keeping_setOffset _).bind (fun _ => keeping_pure _))

theorem keeping_readFullLoop (rounds n : ℕ) (acc : Bytes) : Keeping hd I stored d (readFullLoop rounds n acc) := by
  induction rounds generalizing n acc with
  | zero =>
    rw [readFullLoop]
    split
    · exact keeping_pure _
    · exact keeping_raise _
  | succ rounds ih =>
    rw [readFullLoop]
    split
    · exact keeping_pure _
    · refine (keeping_read hst n).catchError.bind (fun res => ?_)
      cases res with
      | ok out => exact ih _ _
      | error e => exact keeping_pure _

theorem keeping_readAt (hlen : d.length < 2 ^ 64) (n : ℕ) (off : Int64) : Keeping hd I stored d (readAt n off) := by
  refine keeping_self.bind (fun r => ?_)
  split
  · refine (keeping_seek hst hlen off 0).bind (fun res => ?_)
    dsimp only
    split
    · exact keeping_pure _
    · exact keeping_readFullLoop hst n n []
  · exact keeping_readFullLoop hst n n []

end Standing

section Reached

/-- The states that calls lead to, if all of them come back. -/
inductive Reached (hd : Handler σ) (r₀ : FileReader) (s₀ : σ) : FileReader → σ → Prop
  | start : Reached hd r₀ s₀ r₀ s₀
  | seek {r : FileReader} {s : σ} (off : Int64) (whence : ℤ) (h : Reached hd r₀ s₀ r s)
      (hret : Returns (exec hd (seek off whence) r s).1) :
      Reached hd r₀ s₀ (exec hd (seek off whence) r s).2.1 (exec hd (seek off whence) r s).2.2
  | read {r : FileReader} {s : σ} (n : ℕ) (h : Reached hd r₀ s₀ r s)
      (hret : Returns (exec hd (read n) r s).1) :
      Reached hd r₀ s₀ (exec hd (read n) r s).2.1 (exec hd (read n) r s).2.2
  | readAt {r : FileReader} {s : σ} (n : ℕ) (off : Int64) (h : Reached hd r₀ s₀ r s)
      (hret : Returns (exec hd (readAt n off) r s).1) :
      Reached hd r₀ s₀ (exec hd (readAt n off) r s).2.1 (exec hd (readAt n off) r s).2.2

variable {s₀ : σ} {r₀ : FileReader}

theorem Reached.standing (hst : Faulty hd I stored) (hI : I s₀) (h₀ : Standing stored d r₀.rdr)
    (hlen : d.length < 2 ^ 64) (h : Reached hd r₀ s₀ r s) : I s ∧ Standing stored d r.rdr := by
  induction h with
  | start => exact ⟨hI, h₀⟩
  | seek off whence _ hret ih => exact keeping_seek hst hlen off whence _ _ ih.1 ih.2 hret
  | read n _ hret ih => exact keeping_read hst n _ _ ih.1 ih.2 hret
  | readAt n off _ hret ih => exact keeping_readAt hst hlen n off _ _ ih.1 ih.2 hret

end Reached

end Bpy.FileReaders
