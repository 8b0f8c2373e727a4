import Bpy.HashTreeStreams
import Mathlib.Data.List.Sort

/-!
# `fs.WriteDir` and `fs.ReadDir`

A directory is a hash tree with the encodings of its entries, the entry `.` first and the
others sorted, folders before files. The sort is not stable, but entries that it could
swap have equal names, and these are refused.
-/
namespace Bpy.Directories
open ByteWords InteractionPrograms ContentStore HashTreeWriter HashTreeReader
open HashTreeRoundTrip HashTreeStreams ProgramLogic FailStop Method
open List hiding get

/-- `os.ModeDir`. -/
def modeDir : UInt32 := 2147483648

structure DirEnt where
  entName : Bytes
  entSize : Int64
  entModTime : Int64
  entMode : UInt32
  htree : HTree
  deriving DecidableEq

namespace DirEnt

def isDir (ent : DirEnt) : Bool := ent.entMode &&& modeDir ≠ 0

def encode (e : DirEnt) : Bytes :=
  leBytes 2 e.entName.length ++ (e.entName ++ (leBytes 8 e.entSize.toUInt64.toNat ++
    (leBytes 4 e.entMode.toNat ++ (leBytes 8 e.entModTime.toUInt64.toNat ++
      (UInt8.ofNat e.htree.depth :: e.htree.data.bytes)))))

/-- The entry fits into its encoding. -/
structure Encodable (e : DirEnt) : Prop where
  name : e.entName.length ≤ 65535
  depth : e.htree.depth < 256

end DirEnt

/-- `data[0:n]` and `data[n:]`. -/
def cut (n : ℕ) (data : Bytes) : Except GoError (Bytes × Bytes) :=
  if n ≤ data.length then .ok (data.take n, data.drop n)
  else .error (.panic "slice bounds out of range")

theorem cut_append {n : ℕ} {a : Bytes} (h : a.length = n) (b : Bytes) : cut n (a ++ b) = .ok (a, b) := by
  simp [cut, ← h]

def toInt64 (data : Bytes) : Int64 := (UInt64.ofNat (leNat data)).toInt64

theorem toInt64_leBytes (x : Int64) : toInt64 (leBytes 8 x.toUInt64.toNat) = x := by
  rw [toInt64, leNat_leBytes_of_lt (by simpa using x.toUInt64.toNat_lt)]
  simp

def decodeEnt (data : Bytes) : Except GoError (DirEnt × Bytes) := do
  let (namelen, data) ← cut 2 data
  let (name, data) ← cut (leNat namelen) data
  let (size, data) ← cut 8 data
  let (mode, data) ← cut 4 data
  let (modtime, data) ← cut 8 data
  match data with
  | [] => .error (.panic "index out of range")
  | depth :: data =>
    let (hash, data) ← cut 32 data
    pure (⟨name, toInt64 size, toInt64 modtime, UInt32.ofNat (leNat mode),
      ⟨depth.toNat, Hash.copy hash⟩⟩, data)

/-- The loop of `ReadDir`. Every round takes at least one byte. -/
def decodeEnts : ℕ → Bytes → Except GoError (List DirEnt)
  | 0, _ => .error (.panic "out of rounds")
  | rounds + 1, data =>
    if data = [] then .ok []
    else do
      let (ent, data) ← decodeEnt data
      let ents ← decodeEnts rounds data
      pure (ent :: ents)

def encodeEnts (ents : List DirEnt) : Bytes := ents.flatMap DirEnt.encode

theorem decodeEnt_encode {e : DirEnt} (he : e.Encodable) (rest : Bytes) :
    decodeEnt (e.encode ++ rest) = .ok (e, rest) := by
  have hname : leNat (leBytes 2 e.entName.length) = e.entName.length :=
    leNat_leBytes_of_lt (by have := he.name; omega)
  have hmode : leNat (leBytes 4 e.entMode.toNat) = e.entMode.toNat :=
    leNat_leBytes_of_lt (by simpa using e.entMode.toNat_lt)
  have hdepth : (UInt8.ofNat e.htree.depth).toNat = e.htree.depth := by
    rw [UInt8.toNat_ofNat', Nat.mod_eq_of_lt he.depth]
  simp only [decodeEnt, DirEnt.encode, append_assoc, cons_append,
    cut_append (length_leBytes 2 _), cut_append (length_leBytes 8 _), cut_append (length_leBytes 4 _),
    cut_append e.htree.data.length_bytes, hname, bind, Except.bind, cut_append rfl]
  simp [pure, Except.pure, hmode, hdepth, toInt64_leBytes]

theorem encode_ne_nil (e : DirEnt) (rest : Bytes) : e.encode ++ rest ≠ [] := by
  simp [DirEnt.encode]

theorem decodeEnts_encodeEnts {ents : List DirEnt} (he : ∀ e ∈ ents, e.Encodable) (rounds : ℕ)
    (hr : ents.length < rounds) : decodeEnts rounds (encodeEnts ents) = .ok ents := by
  induction rounds generalizing ents with
  | zero => omega
  | succ rounds ih =>
    cases ents with
    | nil => rfl
    | cons e ents =>
      have hsplit : encodeEnts (e :: ents) = e.encode ++ encodeEnts ents := by
        simp [encodeEnts]
      have hrest := ih (fun x hx => he x (mem_cons_of_mem e hx)) (Nat.lt_of_succ_lt_succ hr)
      rw [hsplit, decodeEnts, if_neg (encode_ne_nil e _)]
      simp only [decodeEnt_encode (he e mem_cons_self), bind, Except.bind, hrest]
      rfl

theorem length_le_encodeEnts (ents : List DirEnt) : ents.length ≤ (encodeEnts ents).length := by
  induction ents with
  | nil => simp
  | cons e ents ih =>
    have hpos := length_pos_of_ne_nil (encode_ne_nil e [])
    simp only [encodeEnts, flatMap_cons, length_append, length_cons] at ih hpos ⊢
    simp only [length_nil] at hpos
    omega

section Read

variable {ω : Type} (room : ℕ → ℕ)

def readDir (hash : Hash) : StoreM ω (List DirEnt) := do
  let (dirdata, rdr) ← readTree room hash
  let dir ← Method.ofExcept (decodeEnts (dirdata.length + 1) dirdata)
  match dir with
  | [] => goPanic "index out of range"
  | dot :: ents => pure ({ dot with htree := ⟨getHeight rdr, hash⟩ } :: ents)

theorem readDir_wp {sha256 : Bytes → Hash} {faulty : Prop} {s : List Bytes} {t : HTree} {dot : DirEnt}
    {ents : List DirEnt} (w : ω) (hinj : Set.InjOn sha256 {c | c ∈ s})
    (ht : Tree (Stored sha256 s) t (encodeEnts (dot :: ents))) (he : ∀ e ∈ dot :: ents, e.Encodable) :
    wp (storeWorld sha256 faulty) (fun _ q => Reads q) (readDir room t.data) (fun res w' s' => w' = w ∧ s' = s ∧
        (res = .ok ({ dot with htree := t } :: ents) ∨ (faulty ∧ ∃ e, res = .error e))) w s := by
  obtain ⟨rdr, hheight, hread⟩ := readTree_wp faulty room w hinj ht
  have hdecode := decodeEnts_encodeEnts he ((encodeEnts (dot :: ents)).length + 1)
    (Nat.lt_succ_of_le (length_le_encodeEnts _))
  refine wp_seq hread ?_ ?_
  · rintro x w' s' ⟨rfl, rfl, hx | ⟨-, e, he⟩⟩
    · simp only [Except.ok.injEq] at hx
      subst hx
      simp [wp_bind, Method.after, hdecode, hheight]
    · simp at he
  · rintro e w' s' ⟨rfl, rfl, he | ⟨hfaulty, -⟩⟩
    · simp at he
    · exact ⟨rfl, rfl, Or.inr ⟨hfaulty, e, rfl⟩⟩

end Read

section Write

variable {ω : Type}

/-- `DirEnts.Less`. -/
def less (a b : DirEnt) : Bool :=
  if a.isDir && !b.isDir then true
  else if !a.isDir && b.isDir then false
  else a.entName < b.entName

def sortEnts (ents : List DirEnt) : List DirEnt := ents.insertionSort (fun a b => less b a = false)

/-- The check of adjacent entries. The last one is not compared with `.`. -/
def checkNames : List DirEnt → Except GoError Unit
  | a :: b :: ents =>
    if a.entName = ascii "." then .error (.text "cannot name file or folder '.'")
    else if a.entName = b.entName then .error (.format "duplicate directory entry '%s'" a.entName)
    else checkNames (b :: ents)
  | _ => .ok ()

def checkLengths : List DirEnt → Except GoError Unit
  | [] => .ok ()
  | e :: ents =>
    if e.entName.length > 65535 then .error (.format "directory entry name '%s' too long" e.entName)
    else checkLengths ents

/-- The entry for `.` with the mode `mode`. -/
def dotEnt (mode : UInt32) : DirEnt :=
  ⟨ascii ".", 0, 0, mode ||| modeDir, ⟨0, Hash.zero⟩⟩

theorem dotEnt_encodable (mode : UInt32) : (dotEnt mode).Encodable :=
  ⟨show (ascii ".").length ≤ 65535 by decide, Nat.zero_lt_succ 255⟩

/-- The buffer for the encoding has to fit into memory. -/
def checkSize (data : Bytes) : Except GoError Unit :=
  if data.length < 2 ^ 63 then .ok () else .error (.panic "makeslice: cap out of range")

/-- The tree of a directory that has been encoded. -/
def writeEncoded (data : Bytes) : StoreM ω HTree := do
  let (tree, _) ← Method.on newWriter (do
    let _ ← write data
    close)
  pure tree

def writeDir (indir : List DirEnt) (mode : UInt32) : StoreM ω DirEnt := do
  let ent := dotEnt mode
  let dir := sortEnts indir
  Method.ofExcept (checkNames dir)
  Method.ofExcept (checkSize (encodeEnts (ent :: dir)))
  Method.ofExcept (checkLengths (ent :: dir))
  let tree ← writeEncoded (encodeEnts (ent :: dir))
  pure { ent with htree := tree }

theorem mem_sortEnts {ents : List DirEnt} {e : DirEnt} : e ∈ sortEnts ents ↔ e ∈ ents :=
  mem_insertionSort _

theorem checkLengths_ok {ents : List DirEnt} {u : Unit} (h : checkLengths ents = .ok u) :
    ∀ e ∈ ents, e.entName.length ≤ 65535 := by
  induction ents with
  | nil => simp
  | cons e ents ih =>
    rw [checkLengths] at h
    split at h
    · simp at h
    · intro x hx
      rcases mem_cons.mp hx with rfl | hx
      · omega
      · exact ih h x hx

theorem checkSize_ok {data : Bytes} {u : Unit} (h : checkSize data = .ok u) : data.length < 2 ^ 64 := by
  rw [checkSize] at h
  split at h
  · omega
  · cases h

theorem writeEncoded_spec (sha256 : Bytes → Hash) (s : List Bytes) (w : ω) {data : Bytes}
    (hlen : data.length < 2 ^ 64) :
    ∃ t written, exec (memStore sha256) (writeEncoded data) w s = (.ok t, w, written ++ s) ∧
      t.depth ≤ 6 ∧ Tree (Stored sha256 written) t data := by
  obtain ⟨t, w₁, written, hrun, hh, ht⟩ := writeTree_spec sha256 s hlen
  have htree := hrun [data] (by simp)
  refine ⟨t, written, ?_, ht, hh, ?_, hlen⟩
  · simp only [writeTree, writeAll, exec_bind] at htree
    simp only [writeEncoded, exec_bind, exec_on]
    rcases h₁ : exec (memStore sha256) (write data) newWriter s with ⟨r, w₂, s₂⟩
    rw [h₁] at htree
    cases r with
    | error e => simp at htree
    | ok n =>
      simp only [exec_pure] at htree
      simp [htree, Except.map]
  · simp only [nlevels]
    omega

theorem writeDir_ok {sha256 : Bytes → Hash} {s s' : List Bytes} {indir : List DirEnt} {mode : UInt32}
    {ent : DirEnt} {w w' : ω}
    (hwrite : exec (memStore sha256) (writeDir indir mode) w s = (.ok ent, w', s')) :
    (∃ ws, s' = ws ++ s) ∧ ent = { dotEnt mode with htree := ent.htree } ∧ ent.htree.depth ≤ 6 ∧
      Tree (Stored sha256 s') ent.htree (encodeEnts (dotEnt mode :: sortEnts indir)) ∧
      ∀ e ∈ indir, e.entName.length ≤ 65535 := by
  simp only [writeDir, exec_bind, exec_ofExcept] at hwrite
  cases hnames : checkNames (sortEnts indir) with
  | error e => simp [hnames] at hwrite
  | ok u =>
    cases hsize : checkSize (encodeEnts (dotEnt mode :: sortEnts indir)) with
    | error e => simp [hnames, hsize] at hwrite
    | ok u =>
      cases hlens : checkLengths (dotEnt mode :: sortEnts indir) with
      | error e => simp [hnames, hsize, hlens] at hwrite
      | ok u =>
        obtain ⟨t, written, hrun, ht, htree⟩ := writeEncoded_spec sha256 s w (checkSize_ok hsize)
        simp only [hnames, hsize, hlens, hrun, exec_pure, Prod.mk.injEq, Except.ok.injEq] at hwrite
        obtain ⟨rfl, -, rfl⟩ := hwrite
        refine ⟨⟨written, rfl⟩, rfl, ht, htree.mono (fun h c hc => ?_), fun e he => ?_⟩
        · exact ⟨mem_append_left _ hc.1, hc.2⟩
        · exact checkLengths_ok hlens e (mem_cons_of_mem _ (mem_sortEnts.mpr he))

end Write

section Puts

variable {ω α : Type}

/-- The request only writes. -/
def Puts : StoreRequest → Prop
  | .put _ => True
  | .get _ => False

abbrev OnlyPuts (x : StoreM ω α) : Prop := Stops Puts (fun _ _ => False) (fun _ => True) x

theorem run_onlyPuts {p : Prog StoreRequest StoreRequest.Response (Except GoError α × ω)}
    (sha256 : Bytes → Hash) (hp : StopsAt Puts (fun _ _ => False) (fun _ => True) p) (s s' : List Bytes) :
    (p.run (memStore sha256) s).1 = (p.run (memStore sha256) s').1 := by
  induction p generalizing s s' with
  | done a => rfl
  | call q k ih =>
    cases q with
    | put data => exact ih _ ((hp.2 _).2 not_false) _ _
    | get hash => exact hp.1.elim

theorem onlyPuts_put (data : Bytes) : OnlyPuts (put data : StoreM ω Hash) :=
  stops_send trivial (fun _ h => h.elim)

section Writes

variable {bad : (q : StoreRequest) → q.Response → Prop} {fails : GoError → Prop}
  (hput : ∀ data, Stops Puts bad fails (put data : WriterM Hash))
include hput

theorem stops_flushFrom (n lvl : ℕ) : Stops Puts bad fails (flushFrom n lvl) := by
  induction n generalizing lvl with
  | zero => exact stops_self.bind (fun w => (hput _).bind (fun _ => stops_raise _))
  | succ n ih =>
    refine stops_self.bind (fun w => (hput _).bind (fun hash => ?_))
    dsimp only
    split
    · exact (ih _).bind (fun _ => stops_update _)
    · exact stops_update _

theorem stops_writeLoop (rounds : ℕ) (buf : Bytes) : Stops Puts bad fails (writeLoop rounds buf) := by
  induction rounds generalizing buf with
  | zero => exact stops_raise _
  | succ rounds ih =>
    rw [writeLoop]
    split
    · exact stops_pure _
    · refine stops_self.bind (fun w => ?_)
      dsimp only
      split
      · exact (stops_flushFrom hput _ _).bind (fun _ => (stops_update _).bind (fun _ => ih _))
      · exact (stops_update _).bind (fun _ => ih _)

theorem stops_write (buf : Bytes) : Stops Puts bad fails (write buf) :=
  (stops_writeLoop hput _ _).bind (fun _ => stops_pure _)

theorem stops_flushLevels (is : List ℕ) : Stops Puts bad fails (flushLevels is) := by
  induction is with
  | nil => exact stops_pure _
  | cons i is ih =>
    refine stops_self.bind (fun w => ?_)
    dsimp only
    split
    · exact ih
    · exact (stops_flushFrom hput _ _).bind (fun _ => ih)

theorem stops_close : Stops Puts bad fails close := by
  refine stops_self.bind (fun w => ?_)
  split
  · exact stops_raise _
  · refine (stops_flushLevels hput _).bind (fun _ => stops_self.bind (fun w => ?_))
    split
    · exact stops_raise _
    · split
      · exact stops_pure _
      · exact (hput _).bind (fun _ => stops_pure _)

end Writes

theorem writeEncoded_anywhere (sha256 : Bytes → Hash) (data : Bytes) (w : ω) (s : List Bytes) :
    (exec (memStore sha256) (writeEncoded data) w s).1 = (exec (memStore sha256) (writeEncoded data) () []).1 := by
  have hputs : OnlyPuts (write data >>= fun _ => close) :=
    (stops_write onlyPuts_put data).bind (fun _ => stops_close onlyPuts_put)
  have hsame : (exec (memStore sha256) (write data >>= fun _ => close) newWriter s).1 =
      (exec (memStore sha256) (write data >>= fun _ => close) newWriter []).1 := by
    rw [exec, exec, run_onlyPuts sha256 (hputs newWriter) s []]
  rw [writeEncoded, writeEncoded, exec_bind, exec_bind, exec_on, exec_on, hsame]
  cases (exec (memStore sha256) (write data >>= fun _ => close) newWriter []).1 with
  | error e => rfl
  | ok t => rfl

theorem writeDir_anywhere (sha256 : Bytes → Hash) (indir : List DirEnt) (mode : UInt32) (w : ω) (s : List Bytes) :
    (exec (memStore sha256) (writeDir indir mode) w s).1 =
      (exec (memStore sha256) (writeDir indir mode) () []).1 := by
  have hsame := writeEncoded_anywhere sha256 (encodeEnts (dotEnt mode :: sortEnts indir)) w s
  simp only [writeDir, exec_bind, exec_ofExcept]
  cases checkNames (sortEnts indir) with
  | error e => rfl
  | ok u =>
    cases checkSize (encodeEnts (dotEnt mode :: sortEnts indir)) with
    | error e => rfl
    | ok u =>
      cases checkLengths (dotEnt mode :: sortEnts indir) with
      | error e => rfl
      | ok u =>
        dsimp only
        revert hsame
        rcases exec (memStore sha256) (writeEncoded _) w s with ⟨x, w₁, s₁⟩
        rcases exec (memStore sha256) (writeEncoded _) () [] with ⟨y, w₂, s₂⟩
        rintro (rfl : x = y)
        cases x with
        | error e => rfl
        | ok t => rfl

end Puts

end Bpy.Directories
