import Bpy.Directories

/-!
# `ReadDir` on any stream

`ReadDir` may be given the tree of a file. It cuts records off the stream without a check
that there is enough left, and takes it for granted that there is an entry for `.`.
-/
namespace Bpy.DirStreams
open ByteWords InteractionPrograms ContentStore HashTreeWriter HashTreeReader
open HashTreeRoundTrip HashTreeStreams Directories
open List Method

/-- The length of the record at the front of the stream: the length of the name, the name, and the
fields of fixed width. -/
def recordLength (d : Bytes) : ℕ := 2 + leNat (d.take 2) + (8 + 4 + 8 + 1 + 32)

/-- There is a whole record at the front. -/
def Whole (d : Bytes) : Prop := 2 ≤ d.length ∧ recordLength d ≤ d.length

/-- The stream consists of whole records. -/
inductive Records : Bytes → Prop
  | nil : Records []
  | cons {d : Bytes} (hd : Whole d) (hrest : Records (d.drop (recordLength d))) : Records d

section Decoding

variable {d : Bytes}

variable {n rounds : ℕ} {bs : Bytes}

theorem exists_cut (h : n ≤ d.length) : ∃ a b, d = a ++ b ∧ a.length = n :=
  ⟨d.take n, d.drop n, (take_append_drop n d).symm, length_take_of_le h⟩

theorem leBytes_toInt64 (h : bs.length = 8) : leBytes 8 (toInt64 bs).toUInt64.toNat = bs := by
  have hlt := leNat_lt bs
  rw [h] at hlt
  rw [toInt64, UInt64.toUInt64_toInt64, UInt64.toNat_ofNat_of_lt' hlt, ← h, leBytes_leNat]

theorem leBytes_toUInt32 (h : bs.length = 4) : leBytes 4 (UInt32.ofNat (leNat bs)).toNat = bs := by
  have hlt := leNat_lt bs
  rw [h] at hlt
  rw [UInt32.toNat_ofNat_of_lt' hlt, ← h, leBytes_leNat]

theorem exists_ent (h : Whole d) : ∃ e : DirEnt, e.Encodable ∧ d = e.encode ++ d.drop (recordLength d) := by
  obtain ⟨htwo, hlen⟩ := h
  obtain ⟨namelen, d₁, rfl, hnamelen⟩ := exists_cut htwo
  rw [recordLength, List.take_left' hnamelen, length_append] at hlen
  obtain ⟨name, d₂, rfl, hname⟩ := exists_cut (d := d₁) (n := leNat namelen) (by omega)
  rw [length_append] at hlen
  obtain ⟨size, d₃, rfl, hsize⟩ := exists_cut (d := d₂) (n := 8) (by omega)
  rw [length_append] at hlen
  obtain ⟨mode, d₄, rfl, hmode⟩ := exists_cut (d := d₃) (n := 4) (by omega)
  rw [length_append] at hlen
  obtain ⟨modtime, d₅, rfl, hmodtime⟩ := exists_cut (d := d₄) (n := 8) (by omega)
  rw [length_append] at hlen
  cases d₅ with
  | nil => simp at hlen; omega
  | cons depth d₆ =>
    rw [length_cons] at hlen
    obtain ⟨hash, rest, rfl, hhash⟩ := exists_cut (d := d₆) (n := 32) (by omega)
    have hbound := leNat_lt namelen
    rw [hnamelen] at hbound
    let e : DirEnt := ⟨name, toInt64 size, toInt64 modtime, UInt32.ofNat (leNat mode), ⟨depth.toNat, ⟨hash, hhash⟩⟩⟩
    have hencode : e.encode = namelen ++ (name ++ (size ++ (mode ++ (modtime ++ depth :: hash)))) := by
      simp only [e, DirEnt.encode, hname, leBytes_toInt64 hsize, leBytes_toInt64 hmodtime, leBytes_toUInt32 hmode,
        UInt8.ofNat_toNat]
      rw [← hnamelen, leBytes_leNat]
    have hsplit : namelen ++ (name ++ (size ++ (mode ++ (modtime ++ depth :: (hash ++ rest))))) = e.encode ++ rest := by
      simp [hencode]
    have hrecord : recordLength (namelen ++ (name ++ (size ++ (mode ++ (modtime ++ depth :: (hash ++ rest)))))) =
        e.encode.length := by
      rw [recordLength, List.take_left' hnamelen, hencode]
      simp only [length_append, length_cons, hnamelen, hname, hsize, hmode, hmodtime, hhash]
      omega
    refine ⟨e, ⟨by simp only [e, hname]; omega, depth.toNat_lt⟩, ?_⟩
    rw [hrecord, hsplit, drop_left]

theorem cut_bind_ok {α : Type} {f : Bytes × Bytes → Except GoError α} {x : α}
    (h : (cut n d >>= f) = .ok x) : n ≤ d.length ∧ f (d.take n, d.drop n) = .ok x := by
  rw [cut] at h
  split at h
  · next hle => exact ⟨hle, h⟩
  · cases h

theorem whole_of_decodeEnt {e : DirEnt} {rest : Bytes} (h : decodeEnt d = .ok (e, rest)) : Whole d := by
  obtain ⟨htwo, h⟩ := cut_bind_ok h
  obtain ⟨hname, h⟩ := cut_bind_ok h
  obtain ⟨hsize, h⟩ := cut_bind_ok h
  obtain ⟨hmode, h⟩ := cut_bind_ok h
  obtain ⟨hmodtime, h⟩ := cut_bind_ok h
  dsimp only at h
  split at h
  · cases h
  · next depth d₆ heq =>
    obtain ⟨hhash, -⟩ := cut_bind_ok h
    have hlen := congrArg length heq
    simp only [length_drop, length_cons] at hlen hname hsize hmode hmodtime
    refine ⟨htwo, ?_⟩
    rw [recordLength]
    omega

/-- All that goes wrong is a panic. -/
def Panics {α : Type} (x : Except GoError α) : Prop := ∀ e, x = .error e → ∃ msg, e = .panic msg

theorem panics_cut_bind {α : Type} {f : Bytes × Bytes → Except GoError α}
    (hf : Panics (f (d.take n, d.drop n))) : Panics (cut n d >>= f) := by
  rw [cut]
  split
  · exact hf
  · intro e he
    cases he
    exact ⟨_, rfl⟩

theorem panics_decodeEnt (d : Bytes) : Panics (decodeEnt d) := by
  refine panics_cut_bind (panics_cut_bind (panics_cut_bind (panics_cut_bind (panics_cut_bind ?_))))
  dsimp only
  split
  · intro e he
    cases he
    exact ⟨_, rfl⟩
  · exact panics_cut_bind nofun

theorem decodeEnt_panics (h : ¬ Whole d) : ∃ msg, decodeEnt d = .error (.panic msg) := by
  cases hdecode : decodeEnt d with
  | ok x => exact absurd (whole_of_decodeEnt hdecode) h
  | error e =>
    obtain ⟨msg, rfl⟩ := panics_decodeEnt d e hdecode
    exact ⟨msg, rfl⟩

theorem decodeEnts_ok (h : Records d) (hrounds : d.length < rounds) :
    ∃ ents, decodeEnts rounds d = .ok ents ∧ encodeEnts ents = d := by
  induction h generalizing rounds with
  | nil =>
    obtain ⟨rounds, rfl⟩ : ∃ k, rounds = k + 1 := ⟨rounds - 1, by omega⟩
    exact ⟨[], rfl, rfl⟩
  | @cons d hd _ ih =>
    obtain ⟨rounds, rfl⟩ : ∃ k, rounds = k + 1 := ⟨rounds - 1, by omega⟩
    obtain ⟨e, he, hsplit⟩ := exists_ent hd
    have hlen := hd.1
    have hne : d ≠ [] := length_pos_iff.mp (by omega)
    have hpos : 0 < recordLength d := by rw [recordLength]; omega
    obtain ⟨ents, hents, hencode⟩ := @ih rounds (by rw [length_drop]; omega)
    have hdecode : decodeEnt d = .ok (e, d.drop (recordLength d)) := by
      conv_lhs => rw [hsplit]
      exact decodeEnt_encode he _
    refine ⟨e :: ents, ?_, ?_⟩
    · rw [decodeEnts, if_neg hne]
      simp only [hdecode, bind, Except.bind, hents]
      rfl
    · conv_rhs => rw [hsplit]
      rw [← hencode]
      rfl

theorem decodeEnts_panics (h : ¬ Records d) (hrounds : d.length < rounds) :
    ∃ msg, decodeEnts rounds d = .error (.panic msg) := by
  induction rounds generalizing d with
  | zero => omega
  | succ rounds ih =>
    have hne : d ≠ [] := by
      rintro rfl
      exact h .nil
    rw [decodeEnts, if_neg hne]
    by_cases hd : Whole d
    · obtain ⟨e, he, hsplit⟩ := exists_ent hd
      have hdecode : decodeEnt d = .ok (e, d.drop (recordLength d)) := by
        conv_lhs => rw [hsplit]
        exact decodeEnt_encode he _
      have hpos : 0 < recordLength d := by rw [recordLength]; omega
      have hlen := length_pos_iff.mpr hne
      obtain ⟨msg, hmsg⟩ := @ih (d.drop (recordLength d)) (fun hrest => h (.cons hd hrest))
        (by rw [length_drop]; omega)
      refine ⟨msg, ?_⟩
      simp only [hdecode, bind, Except.bind, hmsg]
    · obtain ⟨msg, hmsg⟩ := decodeEnt_panics hd
      refine ⟨msg, ?_⟩
      simp only [hmsg, bind, Except.bind]

end Decoding

section Streams

variable {σ : Type} {hd : Handler σ} {s : σ} {stored : Hash → Bytes → Prop} {room : ℕ → ℕ} {t : HTree} {d : Bytes}

/-- The entries are those of the stream, with the tree filled in for the first one, or there is an
error and no panic. -/
def Decodes (t : HTree) (d : Bytes) (res : Except GoError (List DirEnt)) : Prop :=
  (∃ dot ents, encodeEnts (dot :: ents) = d ∧ res = .ok ({ dot with htree := t } :: ents)) ∨
    ∃ e, res = .error e ∧ ∀ msg, e ≠ .panic msg

theorem not_decodes_panic {msg : String} : ¬ Decodes t d (.error (.panic msg)) := by
  intro hdecodes
  rcases hdecodes with ⟨dot, ents, -, hres⟩ | ⟨e, he, hnot⟩
  · cases hres
  · cases he
    exact hnot msg rfl

theorem exec_readDir (hs : Serves hd s stored) (ht : Tree stored t d) :
    (exec hd (readDir room t.data) () s).1 = match decodeEnts (d.length + 1) d with
      | .error e => .error e
      | .ok [] => .error (.panic "index out of range")
      | .ok (dot :: ents) => .ok ({ dot with htree := t } :: ents) := by
  obtain ⟨rdr, hread, hheight⟩ := readTree_spec room () hs ht
  rw [readDir, exec_bind_ok _ hread, exec_bind, exec_ofExcept]
  cases decodeEnts (d.length + 1) d with
  | error e => rfl
  | ok dir =>
    cases dir with
    | nil => rfl
    | cons dot ents =>
      obtain ⟨depth, data⟩ := t
      cases hheight
      rfl

/-- `ReadDir` decodes the stream or returns an error exactly if the stream consists of whole records
and there is one. -/
theorem readDir_total_iff (hd : Handler σ) (s : σ) (stored : Hash → Bytes → Prop) (hs : Serves hd s stored)
    (room : ℕ → ℕ) (t : HTree) (d : Bytes) (ht : Tree stored t d) :
    Decodes t d (Method.exec hd (readDir room t.data) () s).1 ↔ d ≠ [] ∧ Records d := by
  rw [exec_readDir hs ht]
  by_cases hrecords : Records d
  · obtain ⟨ents, hents, hencode⟩ := decodeEnts_ok hrecords (Nat.lt_succ_self _)
    rw [hents]
    cases ents with
    | nil =>
      refine iff_of_false not_decodes_panic (fun hd => hd.1 ?_)
      rw [← hencode]
      rfl
    | cons dot ents =>
      refine iff_of_true (.inl ⟨dot, ents, hencode, rfl⟩) ⟨?_, hrecords⟩
      rw [← hencode]
      exact encode_ne_nil dot _
  · obtain ⟨msg, hmsg⟩ := decodeEnts_panics hrecords (Nat.lt_succ_self _)
    rw [hmsg]
    exact iff_of_false not_decodes_panic (fun hd => hrecords hd.2)

theorem tree_leaf {d : Bytes} (hlen : d.length < maxlen) :
    Tree (Stored Hash.copy [0 :: d]) ⟨0, Hash.copy (0 :: d)⟩ d where
  holds := ⟨⟨mem_singleton_self _, rfl⟩, hlen⟩
  depth_lt := show 0 + 1 < nlevels by decide
  length_lt := hlen.trans (by decide)

theorem serves_leaf (d : Bytes) : Serves (memStore Hash.copy) [0 :: d] (Stored Hash.copy [0 :: d]) :=
  serves_self (injOn_of_list (by simp))

def oneRecord : Bytes := 1 :: 0 :: 46 :: List.replicate 53 0

theorem readDir_total_one : oneRecord ≠ [] ∧ Records oneRecord ∧
    Decodes ⟨0, Hash.copy (0 :: oneRecord)⟩ oneRecord
      (Method.exec (memStore Hash.copy) (readDir id (Hash.copy (0 :: oneRecord))) () [0 :: oneRecord]).1 := by
  have hrecords : Records oneRecord := .cons ⟨by decide, by decide⟩ .nil
  have hne : oneRecord ≠ [] := List.cons_ne_nil _ _
  exact ⟨hne, hrecords, (readDir_total_iff _ _ _ (serves_leaf oneRecord) id _ oneRecord
    (tree_leaf (by decide))).mpr ⟨hne, hrecords⟩⟩

/-- The content `a` of a file is taken for a directory. -/
theorem readDir_panics :
    (Method.exec (memStore Hash.copy) (writeTree [[97]]) newWriter []).1 = .ok ⟨0, Hash.copy [0, 97]⟩ ∧
    (Method.exec (memStore Hash.copy) (writeTree [[97]]) newWriter []).2.2 = [[0, 97]] ∧
    (Method.exec (memStore Hash.copy) (readDir id (Hash.copy [0, 97])) () [[0, 97]]).1 =
      .error (.panic "slice bounds out of range") ∧
    ¬ Decodes ⟨0, Hash.copy [0, 97]⟩ [97]
      (Method.exec (memStore Hash.copy) (readDir id (Hash.copy [0, 97])) () [[0, 97]]).1 := by
  have hpanic : (Method.exec (memStore Hash.copy) (readDir id (Hash.copy [0, 97])) () [[0, 97]]).1 =
      .error (.panic "slice bounds out of range") :=
    exec_readDir (serves_leaf [97]) (tree_leaf (by decide))
  refine ⟨rfl, rfl, hpanic, ?_⟩
  rw [hpanic]
  exact not_decodes_panic

end Streams

end Bpy.DirStreams
