import Bpy.RemoteMessageRoundTrip

/-!
# Packing into a buffer of any size

`PackMessage` should pack a message just if its strings are short and the buffer has room
for all of it, and return an error otherwise. The checks for a field of kind `Slice` do not
match its width: two bytes are asked for where four are written, and lengths are compared
as `uint32` values.
-/
namespace Bpy.PackingBounds
open ByteWords ContentStore RemoteMessages RemoteMessageRoundTrip

/-- What is packed into a buffer with `room` bytes: all of its `size` bytes if it is `short` and
fits, and otherwise there is an error. -/
def Decides (short : Prop) (size room : ℕ) (r : Except GoError Bytes) : Prop :=
  (short ∧ size ≤ room → ∃ bytes, r = .ok bytes ∧ bytes.length = size) ∧
  (¬ (short ∧ size ≤ room) → r = .error errStrTooLarge ∨ r = .error errMsgTooLarge)

/-- The room in which a field of kind `Slice` is packed or refused as it should be. -/
def DataFits (data : Bytes) (room : ℕ) : Prop :=
  room < 2 ∨ 4 ≤ room ∧ (data.length ≤ room - 4 → data.length ≤ (room - 4) % 2 ^ 32) ∧
    (room - 4 < data.length → (room - 4) % 2 ^ 32 < data.length % 2 ^ 32)

section Fields

variable {short short' : Prop} {size size' room : ℕ} {r : Except GoError Bytes} {bytes : Bytes} {e : GoError}

theorem decides_ok_iff : Decides short size room (.ok bytes) ↔ (short ∧ size ≤ room) ∧ bytes.length = size := by
  constructor
  · intro h
    by_cases hfits : short ∧ size ≤ room
    · obtain ⟨bytes', hbytes, hlen⟩ := h.1 hfits
      cases hbytes
      exact ⟨hfits, hlen⟩
    · have herr := h.2 hfits
      simp at herr
  · intro h
    exact ⟨fun _ => ⟨bytes, rfl, h.2⟩, fun hnot => absurd h.1 hnot⟩

theorem decides_tooLarge_iff : Decides short size room (.error errMsgTooLarge) ↔ ¬ (short ∧ size ≤ room) := by
  constructor
  · intro h hfits
    obtain ⟨bytes, hbytes, -⟩ := h.1 hfits
    cases hbytes
  · intro hnot
    exact ⟨fun hfits => absurd hfits hnot, fun _ => .inr rfl⟩

theorem not_decides_panic (msg : String) : ¬ Decides short size room (.error (.panic msg)) := by
  intro h
  by_cases hfits : short ∧ size ≤ room
  · obtain ⟨bytes, hbytes, -⟩ := h.1 hfits
    cases hbytes
  · have herr := h.2 hfits
    simp [errStrTooLarge, errMsgTooLarge] at herr

theorem decides_error (hnot : ¬ (short ∧ size ≤ room)) (he : e = errStrTooLarge ∨ e = errMsgTooLarge) :
    Decides short size room (.error e) := by
  refine ⟨fun hfits => absurd hfits hnot, fun _ => ?_⟩
  rcases he with rfl | rfl
  · exact .inl rfl
  · exact .inr rfl

theorem decides_checked {width : ℕ} (hlen : bytes.length = width) :
    Decides True width room (if room < width then .error errMsgTooLarge else .ok bytes) := by
  split
  · next hlt => exact decides_error (fun h => absurd h.2 (not_le.mpr hlt)) (.inr rfl)
  · next hle => exact decides_ok_iff.mpr ⟨⟨trivial, not_lt.mp hle⟩, hlen⟩

theorem packField_decides {k : Kind} (hk : k ≠ .slice) (v : k.Value) (room : ℕ) :
    Decides (ShortString k v) (fieldSize k v) room (packField k v room) := by
  cases k with
  | bool => exact decides_checked rfl
  | uint16 => exact decides_checked (length_beBytes _ _)
  | uint32 => exact decides_checked (length_beBytes _ _)
  | uint64 => exact decides_checked (length_beBytes _ _)
  | string =>
    simp only [ShortString, fieldSize, packField]
    split
    · exact decides_error (fun h => by omega) (.inr rfl)
    · split
      · exact decides_error (fun h => by omega) (.inl rfl)
      · split
        · exact decides_error (fun h => by omega) (.inr rfl)
        · exact decides_ok_iff.mpr ⟨⟨by omega, by omega⟩, by simp⟩
  | slice => exact absurd rfl hk

theorem packSlice_decides_iff (data : Bytes) (room : ℕ) :
    Decides True (4 + data.length) room (packField .slice data room) ↔ DataFits data room := by
  have hmod : data.length % 2 ^ 32 ≤ data.length := Nat.mod_le _ _
  simp only [packField, DataFits]
  split
  · rw [decides_tooLarge_iff, true_and]
    omega
  · split
    · -- the length of the data is written into two or three bytes
      refine iff_of_false (not_decides_panic _) ?_
      omega
    · split
      · rw [decides_tooLarge_iff, true_and]
        omega
      · rw [decides_ok_iff, true_and, List.length_append, length_beBytes, List.length_take_of_le hmod]
        omega

theorem decides_append {r' : Except GoError Bytes} (hshort : short) (hroom : size ≤ room)
    (herror : ∀ e, r = .error e → r' = .error e)
    (hok : ∀ rest, r = .ok rest → ∃ bytes, r' = .ok bytes ∧ bytes.length = size + rest.length) :
    Decides (short ∧ short') (size + size') room r' ↔ Decides short' size' (room - size) r := by
  have hfits : (short ∧ short') ∧ size + size' ≤ room ↔ short' ∧ size' ≤ room - size :=
    ⟨fun h => ⟨h.1.2, by omega⟩, fun h => ⟨⟨hshort, h.1⟩, by omega⟩⟩
  rw [Decides, hfits, Decides]
  cases r with
  | error e => simp [herror e rfl]
  | ok rest =>
    obtain ⟨bytes, hbytes, hlen⟩ := hok rest rfl
    have hsize : bytes.length = size + size' ↔ rest.length = size' := by omega
    simp only [hbytes, Except.ok.injEq, exists_eq_left', hsize, reduceCtorEq, or_self]

/-- A field of kind `Slice` comes last. -/
def SliceLast : List Kind → Prop
  | [] => True
  | k :: ks => (k = .slice → ks = []) ∧ SliceLast ks

/-- The data of a field of kind `Slice` is packed or refused as it should be, if it is reached. -/
def Settles : (ks : List Kind) → Values ks → ℕ → Prop
  | [], _, _ => True
  | .slice :: _, (data, _), room => DataFits data room
  | k :: ks, (v, vs), room =>
    ShortString k v ∧ fieldSize k v ≤ room → Settles ks vs (room - fieldSize k v)

theorem settles_cons {k : Kind} (hk : k ≠ .slice) {ks : List Kind} (v : k.Value) (vs : Values ks) (room : ℕ) :
    Settles (k :: ks) (v, vs) room ↔
      (ShortString k v ∧ fieldSize k v ≤ room → Settles ks vs (room - fieldSize k v)) := by
  cases k with
  | slice => exact absurd rfl hk
  | _ => rfl

theorem packFields_decides_iff {ks : List Kind} (hlast : SliceLast ks) (vs : Values ks) (room : ℕ) :
    Decides (ShortStrings ks vs) (fieldsSize ks vs) room (packFields ks vs room) ↔ Settles ks vs room := by
  induction ks generalizing room with
  | nil => exact ⟨fun _ => trivial, fun _ => decides_ok_iff.mpr ⟨⟨trivial, Nat.zero_le room⟩, rfl⟩⟩
  | cons k ks ih =>
    obtain ⟨v, vs⟩ := vs
    by_cases hk : k = .slice
    · subst hk
      obtain rfl := hlast.1 rfl
      have hpack : packFields [.slice] (v, vs) room = packField .slice v room := by
        rw [packFields]
        cases packField .slice v room with
        | error e => rfl
        | ok bytes => exact congrArg Except.ok (List.append_nil bytes)
      simp only [hpack, ShortStrings, ShortString, fieldsSize, fieldSize, and_true, Nat.add_zero]
      exact packSlice_decides_iff v room
    · have hfield := packField_decides hk v room
      rw [settles_cons hk, packFields, ShortStrings, fieldsSize]
      by_cases hfits : ShortString k v ∧ fieldSize k v ≤ room
      · obtain ⟨bytes, hbytes, hlen⟩ := hfield.1 hfits
        rw [hbytes]
        dsimp only
        rw [hlen, decides_append (r := packFields ks vs (room - fieldSize k v)) hfits.1 hfits.2, ih hlast.2]
        · exact ⟨fun h _ => h, fun h => h hfits⟩
        · intro e he
          rw [he]
        · intro rest hrest
          rw [hrest]
          exact ⟨_, rfl, by rw [List.length_append, hlen]⟩
      · have hnot : ¬ ((ShortString k v ∧ ShortStrings ks vs) ∧ fieldSize k v + fieldsSize ks vs ≤ room) :=
          fun h => hfits ⟨h.1.1, by omega⟩
        refine ⟨fun _ h => absurd h hfits, fun _ => ?_⟩
        rcases hfield.2 hfits with herr | herr
        · rw [herr]
          exact decides_error hnot (.inl rfl)
        · rw [herr]
          exact decides_error hnot (.inr rfl)

end Fields

theorem sliceLast_kinds (t : MessageType) : SliceLast t.kinds := by
  cases t <;> simp [MessageType.kinds, MessageType.fields, SliceLast]

theorem settles_of_no_slice {ks : List Kind} (h : .slice ∉ ks) (vs : Values ks) (room : ℕ) : Settles ks vs room := by
  induction ks generalizing room with
  | nil => trivial
  | cons k ks ih =>
    obtain ⟨v, vs⟩ := vs
    rw [List.mem_cons, not_or] at h
    exact (settles_cons (Ne.symm h.1) v vs room).mpr (fun _ => ih h.2 vs _)

/-- The data of a message fits the part of a buffer of `n` bytes that is left for it. -/
def MessageFits : Message → ℕ → Prop
  | ⟨.RReadAt, (_, data, _)⟩, n => DataFits data (n - 7)
  | ⟨.TWritePack, (_, data, _)⟩, n => DataFits data (n - 9)
  | _, _ => True

theorem settles_data {k : Kind} (hk : k ≠ .slice) {v : k.Value} (hv : ShortString k v) (vs : Values [.slice])
    (room : ℕ) : Settles [k, .slice] (v, vs) room ↔ DataFits vs.1 (room - fieldSize k v) := by
  rw [settles_cons hk]
  constructor
  · intro h
    by_cases hroom : fieldSize k v ≤ room
    · exact h ⟨hv, hroom⟩
    · exact .inl (by omega)
  · exact fun h _ => h

theorem settles_iff (m : Message) (n : ℕ) : Settles m.type.kinds m.vals (n - 5) ↔ MessageFits m n := by
  obtain ⟨t, vals⟩ := m
  cases t with
  | RReadAt =>
    have hdata := settles_data (k := .uint16) (by decide) (v := vals.1) trivial vals.2 (n - 5)
    rwa [fieldSize, Nat.sub_sub] at hdata
  | TWritePack =>
    have hdata := settles_data (k := .uint32) (by decide) (v := vals.1) trivial vals.2 (n - 5)
    rwa [fieldSize, Nat.sub_sub] at hdata
  | _ => exact ⟨fun _ => trivial, fun _ => settles_of_no_slice (by decide) vals _⟩

theorem messageFits_of_short (m : Message) {n : ℕ} (hn : n < 9) : MessageFits m n := by
  obtain ⟨t, vals⟩ := m
  cases t with
  | RReadAt => exact .inl (by omega)
  | TWritePack => exact .inl (by omega)
  | _ => trivial

/-- `PackMessage` packs a message or returns one of its errors, just as its strings and the buffer
say, if the part of the buffer that is left for the data is not one of those that it mistakes. -/
theorem packMessage_decides_iff (m : Message) (n : ℕ) :
    Decides (ShortStrings m.type.kinds m.vals) (size m) n (packMessage m n) ↔ MessageFits m n := by
  have hfields := packFields_decides_iff (sliceLast_kinds m.type) m.vals (n - 5)
  rw [settles_iff] at hfields
  rw [packMessage]
  split
  · next hlt =>
    refine ⟨fun _ => messageFits_of_short m (by omega), fun _ => decides_error ?_ (.inr rfl)⟩
    rw [size]
    omega
  · next hge =>
    rw [← hfields, ← decides_append trivial (show 5 ≤ n from not_lt.mp hge), true_and, size]
    · intro e he
      rw [he]
    · intro rest hrest
      rw [hrest]
      refine ⟨_, rfl, ?_⟩
      rw [List.length_append, length_beBytes, List.length_cons]
      omega

/-- Two bytes are left for the length of the data. -/
theorem packMessage_two_bytes_left :
    packMessage ⟨.TWritePack, (1, [7], ())⟩ 11 = .error (.panic "slice bounds out of range") ∧
    ¬ Decides (ShortStrings MessageType.TWritePack.kinds (1, [7], ())) (size ⟨.TWritePack, (1, [7], ())⟩) 11
      (packMessage ⟨.TWritePack, (1, [7], ())⟩ 11) :=
  ⟨rfl, not_decides_panic _⟩

end Bpy.PackingBounds
