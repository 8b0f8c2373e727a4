import Bpy.PackRuns
import Mathlib.Data.List.Nodup
import Mathlib.Order.Basic

/-!
# A pack is a map

A pack that has been filled by calls of `Add` and closed is read back as the map from
every key to the value that was added first. The reading is shown for any handle that
serves the bytes of the pack.
-/
namespace Bpy.PackRoundTrip
open ByteWords InteractionPrograms ContentStore ByteSources CryptFile PackFile PackRuns
open Method
open List (append_assoc append_nil drop_left flatMap_cons length_append map_append map_cons map_nil mem_append
  mem_cons_self mem_map mem_singleton)

def KeysIncrease (idx : Index) : Prop := idx.Pairwise (fun a b => a.key < b.key)

variable {idx : Index} {key : Bytes} {ρ : Type} {stream : ρ → Bytes} {Inv : ρ → Prop}
  {ops : List (Bytes × Bytes)} {data : Bytes}

section Search

variable {rounds : ℕ} {e : IndexEnt}

theorem searchLoop_some {lo hi : ℤ}
    (h : searchLoop idx key rounds lo hi = some e) : e ∈ idx ∧ e.key = key := by
  induction rounds generalizing lo hi with
  | zero => simp [searchLoop] at h
  | succ rounds ih =>
    rw [searchLoop] at h
    split at h
    · simp at h
    · simp only at h
      split at h
      · simp at h
      · next x hx =>
        split at h
        · next hkey =>
          cases h
          exact ⟨List.mem_of_getElem? hx, hkey.symm⟩
        · split at h
          · exact ih h
          · exact ih h

theorem searchLoop_found (hidx : KeysIncrease idx) {i : ℕ} (hi : idx[i]? = some e)
    {low high : ℤ} (hlow : 0 ≤ low) (hhigh : high < idx.length) (hle : low ≤ i) (hge : i ≤ high)
    (hrounds : high - low < rounds) : searchLoop idx e.key rounds low high = some e := by
  induction rounds generalizing low high with
  | zero => omega
  | succ rounds ih =>
    obtain ⟨mid, hmid⟩ : ∃ mid : ℕ, (high + low) / 2 = mid := ⟨((high + low) / 2).toNat, by omega⟩
    have hlt : mid < idx.length := by omega
    have hget : idx[mid]? = some idx[mid] := List.getElem?_eq_getElem hlt
    obtain ⟨hilt, hie⟩ := List.getElem?_eq_some_iff.mp hi
    rw [searchLoop, if_neg (by omega)]
    simp only [hmid, Int.toNat_natCast, hget]
    rcases Nat.lt_trichotomy i mid with hlt' | rfl | hgt
    · have hkey : e.key < idx[mid].key := hie ▸ List.pairwise_iff_getElem.mp hidx i mid hilt hlt hlt'
      have hne : e.key ≠ idx[mid].key := fun heq => List.lt_irrefl _ (heq ▸ hkey)
      rw [if_neg hne, if_pos hkey]
      apply ih <;> omega
    · rw [hie, if_pos rfl]
    · have hkey : idx[mid].key < e.key := hie ▸ List.pairwise_iff_getElem.mp hidx mid i hlt hilt hgt
      have hne : e.key ≠ idx[mid].key := fun heq => List.lt_irrefl _ (heq ▸ hkey)
      rw [if_neg hne, if_neg (List.lt_asymm hkey)]
      apply ih <;> omega

theorem search_eq_some_iff (hidx : KeysIncrease idx) : search idx key = some e ↔ e ∈ idx ∧ e.key = key := by
  constructor
  · exact searchLoop_some
  · intro h
    obtain ⟨he, rfl⟩ := h
    obtain ⟨i, hi⟩ := List.getElem?_of_mem he
    have hlt := (List.getElem?_eq_some_iff.mp hi).1
    apply searchLoop_found hidx hi <;> omega

theorem search_eq_none_iff (hidx : KeysIncrease idx) : search idx key = none ↔ key ∉ keys idx := by
  rw [Option.eq_none_iff_forall_ne_some]
  simp only [ne_eq, search_eq_some_iff hidx, keys, mem_map, not_exists]

end Search

theorem perm_sortIndex (idx : Index) : (sortIndex idx).Perm idx := List.mergeSort_perm _ _

theorem keysIncrease_sortIndex {idx : Index} (h : (keys idx).Nodup) : KeysIncrease (sortIndex idx) := by
  have hle : (sortIndex idx).Pairwise (fun a b => decide (a.key ≤ b.key) = true) := by
    apply List.pairwise_mergeSort
    · intro a b c hab hbc
      exact decide_eq_true (List.le_trans (of_decide_eq_true hab) (of_decide_eq_true hbc))
    · intro a b
      simpa using List.le_total a.key b.key
  have hnodup : (keys (sortIndex idx)).Nodup := ((perm_sortIndex idx).map _).nodup_iff.mpr h
  have hne : (sortIndex idx).Pairwise (fun a b => a.key ≠ b.key) := List.pairwise_map.mp hnodup
  apply (hle.and hne).imp
  intro a b hab
  by_contra hlt
  exact hab.2 (List.le_antisymm (of_decide_eq_true hab.1) (List.not_lt.mp hlt))

section Index

def encodeEnt (e : IndexEnt) : Bytes :=
  leBytes 3 e.key.length ++ e.key ++ leBytes 3 e.size ++ leBytes 8 e.offset

theorem encodeIndex_eq (idx : Index) : encodeIndex idx = leBytes 8 idx.length ++ idx.flatMap encodeEnt := rfl

/-- The fields of the entry fit their places in an encoded index. -/
structure Fits (e : IndexEnt) : Prop where
  key_lt : e.key.length < 2 ^ 24
  size_lt : e.size < 2 ^ 24
  offset_lt : e.offset < 2 ^ 64

variable {read : ReadFn ρ}

variable {rest : Bytes} {r : ρ}

theorem readIndexEnts_yields (h : Delivers read stream Inv) {idx : Index} (hidx : ∀ e ∈ idx, Fits e) {b : BufReader ρ}
    (hb : Inv b.src) (hs : b.buf ++ stream b.src = idx.flatMap encodeEnt ++ rest) :
    Yields (fun b => b.buf ++ stream b.src) (fun b => Inv b.src) (readIndexEnts read idx.length) b
      idx rest := by
  have hbuf := bufRead_delivers h
  induction idx generalizing b with
  | nil => exact ⟨b, rfl, hb, hs⟩
  | cons e idx ih =>
    have he : Fits e := hidx e mem_cons_self
    have hs : b.buf ++ stream b.src = leBytes 3 e.key.length ++ (e.key ++ (leBytes 3 e.size ++
        (leBytes 8 e.offset ++ (idx.flatMap encodeEnt ++ rest)))) := by
      simpa only [flatMap_cons, encodeEnt, append_assoc] using hs
    apply (readSlice_yields hbuf hb hs he.key_lt).bind
    intro b₁ hb₁ hs₁
    apply (readUint24_yields hbuf hb₁ hs₁ he.size_lt).bind
    intro b₂ hb₂ hs₂
    apply (readUint64_yields hbuf hb₂ hs₂ he.offset_lt).bind
    intro b₃ hb₃ hs₃
    apply (ih (fun x hx => hidx x (List.mem_cons_of_mem e hx)) hb₃ hs₃).bind
    intro b₄ hb₄ hs₄
    exact ⟨b₄, rfl, hb₄, hs₄⟩

theorem readIndex_encodeIndex (h : Delivers read stream Inv) {idx : Index} (hidx : ∀ e ∈ idx, Fits e)
    (hlen : idx.length < 2 ^ 64) (hr : Inv r)
    (hs : stream r = encodeIndex idx ++ rest) : PackFile.readIndex read r = .ok idx := by
  rw [encodeIndex_eq, append_assoc] at hs
  have hall : Yields (fun b : BufReader ρ => b.buf ++ stream b.src) (fun b => Inv b.src)
      (do let n ← readUint64 (bufRead read); readIndexEnts read n) ⟨r, []⟩ idx rest := by
    have hs : (⟨r, []⟩ : BufReader ρ).buf ++ stream r = _ := hs
    apply (readUint64_yields (bufRead_delivers h) (r := ⟨r, []⟩) hr hs hlen).bind
    intro b hb hsb
    exact readIndexEnts_yields h hidx hb hsb
  obtain ⟨b, hrun, -, -⟩ := hall
  rw [PackFile.readIndex, hrun]

theorem takes_readIndexEnts (h : TakesRead read stream Inv) (n : ℕ) :
    Takes (fun b => b.buf ++ stream b.src) (fun b => Inv b.src)
      (fun idx t => idx.length = n ∧ (∀ e ∈ idx, Fits e) ∧ t = idx.flatMap encodeEnt) (readIndexEnts read n) := by
  have hbuf := takesRead_bufRead h
  induction n with
  | zero => exact takes_pure ⟨rfl, nofun, rfl⟩
  | succ n ih =>
    refine (takes_readSlice hbuf).bind (fun key t₁ ht₁ => ?_)
    refine (takes_readUint24 hbuf).bind (fun size t₂ ht₂ => ?_)
    refine (takes_readUint64 hbuf).bind (fun offset t₃ ht₃ => ?_)
    refine ih.bind (fun idx t₄ ht₄ => takes_pure ?_)
    obtain ⟨hkey, rfl⟩ := ht₁
    obtain ⟨hsize, rfl⟩ := ht₂
    obtain ⟨hoffset, rfl⟩ := ht₃
    obtain ⟨rfl, hfits, rfl⟩ := ht₄
    refine ⟨rfl, List.forall_mem_cons.mpr ⟨⟨hkey, hsize, hoffset⟩, hfits⟩, ?_⟩
    simp only [flatMap_cons, encodeEnt, append_assoc, append_nil]

theorem readIndex_ok (h : TakesRead read stream Inv) (hr : Inv r) {idx : Index}
    (hread : PackFile.readIndex read r = .ok idx) :
    idx.length < 2 ^ 64 ∧ (∀ e ∈ idx, Fits e) ∧ encodeIndex idx <+: stream r := by
  have htakes : Takes (fun b : BufReader ρ => b.buf ++ stream b.src) (fun b => Inv b.src)
      (fun idx t => idx.length < 2 ^ 64 ∧ (∀ e ∈ idx, Fits e) ∧ t = encodeIndex idx)
      (do let n ← readUint64 (bufRead read); readIndexEnts read n) := by
    refine (takes_readUint64 (takesRead_bufRead h)).bind (fun n t₁ ht₁ => ?_)
    obtain ⟨hn, rfl⟩ := ht₁
    intro b idx b' hb hrun
    obtain ⟨hb', t, ⟨rfl, hfits, rfl⟩, hs⟩ := takes_readIndexEnts h n b idx b' hb hrun
    exact ⟨hb', _, ⟨hn, hfits, rfl⟩, hs⟩
  obtain ⟨-, t, ⟨hlen, hfits, rfl⟩, hs⟩ := htakes ⟨r, []⟩ idx _ hr (Prod.ext hread rfl)
  exact ⟨hlen, hfits, _, hs.symm⟩

theorem calm_readIndexEnts (h : CalmRead read Inv) (n : ℕ) : Calm (fun b => Inv b.src) (readIndexEnts read n) := by
  have hbuf := calmRead_bufRead h
  induction n with
  | zero => exact calm_pure []
  | succ n ih =>
    refine (calm_readSlice hbuf).bind (fun key => ?_)
    refine (calm_readUint24 hbuf).bind (fun size => ?_)
    refine (calm_readUint64 hbuf).bind (fun offset => ?_)
    exact ih.bind (fun idx => calm_pure _)

theorem readIndex_returns (h : CalmRead read Inv) (hr : Inv r) (msg : String) :
    PackFile.readIndex read r ≠ .error (.panic msg) :=
  (((calm_readUint64 (calmRead_bufRead h)).bind (fun n => calm_readIndexEnts h n)) ⟨r, []⟩ hr).1 msg

theorem readIndex_of_panic {r' : ρ} {msg : String} (h : read r 65536 = (.error (.panic msg), r')) :
    PackFile.readIndex read r = .error (.panic msg) := by
  have hbuf : bufRead read ⟨r, []⟩ 8 = (.error (.panic msg), ⟨r', []⟩) := by
    rw [bufRead, if_neg (by simp), if_neg (by decide), h]
  have hread : readUint64 (bufRead read) ⟨r, []⟩ = (.error (.panic msg), ⟨r', []⟩) :=
    bind_of_error (readFull_of_panic (by decide) hbuf)
  rw [PackFile.readIndex, bind_of_error hread]

end Index

section Write

variable {ω : Type}

/-- `Write` of a plain file. -/
def sinkWrite (data : Bytes) : SinkM ω Unit := Method.send (.write data) id

def sinkClose : SinkM ω Unit := Method.send .close id

/-- A pack from its creation to `Close`, with one call of `Add` for each pair. -/
def writePack (name : Bytes) (ops : List (Bytes × Bytes)) : SinkM Unit Index := do
  let p ← PackWriter.addAll sinkWrite ⟨name, [], 0⟩ ops
  p.close sinkWrite sinkClose

section Emits

variable {Q : Type} {R : Q → Type} {σ α β : Type} (hd : (q : Q) → σ → R q × σ)
  (Rep : ω → σ → Bytes → Prop)

/-- `x` returns `a` and puts `out` behind what has been written. `Rep w s d` says that `d` has
been written. -/
def Emits (x : Method Q R GoError ω α) (a : α) (out : Bytes) : Prop :=
  ∀ w s d, Rep w s d → ∃ w' s', Method.exec hd x w s = (.ok a, w', s') ∧ Rep w' s' (d ++ out)

variable {hd Rep}

theorem emits_pure (a : α) : Emits hd Rep (pure a) a [] := by
  intro w s d h
  exact ⟨w, s, rfl, by rwa [append_nil]⟩

theorem Emits.bind {x : Method Q R GoError ω α} {f : α → Method Q R GoError ω β} {a : α} {b : β} {out out' : Bytes}
    (hx : Emits hd Rep x a out) (hf : Emits hd Rep (f a) b out') : Emits hd Rep (x >>= f) b (out ++ out') := by
  intro w s d h
  obtain ⟨w₁, s₁, hrun₁, h₁⟩ := hx w s d h
  obtain ⟨w₂, s₂, hrun₂, h₂⟩ := hf w₁ s₁ _ h₁
  refine ⟨w₂, s₂, ?_, by rwa [← append_assoc]⟩
  rw [exec_bind_ok hd hrun₁, hrun₂]

variable {write : Bytes → Method Q R GoError ω Unit}
  (hwrite : ∀ data, Emits hd Rep (write data) () data)
include hwrite

theorem writeSlice_emits {v : Bytes} (hv : v.length ≤ maxPackEntrySize) :
    Emits hd Rep (writeSlice write v) () (leBytes 3 v.length ++ v) := by
  rw [writeSlice, if_neg (by omega)]
  exact (hwrite _).bind (hwrite v)

theorem writeIndexEnts_emits {idx : Index} (hidx : ∀ e ∈ idx, e.key.length ≤ maxPackEntrySize) :
    Emits hd Rep (writeIndexEnts write idx) () (idx.flatMap encodeEnt) := by
  induction idx with
  | nil => exact emits_pure ()
  | cons e idx ih =>
    have hrest := ih (fun x hx => hidx x (List.mem_cons_of_mem e hx))
    have hent : List.flatMap encodeEnt (e :: idx) = (leBytes 3 e.key.length ++ e.key) ++
        (leBytes 3 e.size ++ (leBytes 8 e.offset ++ idx.flatMap encodeEnt)) := by
      simp only [flatMap_cons, encodeEnt, append_assoc]
    rw [writeIndexEnts, hent]
    apply (writeSlice_emits hwrite (hidx e mem_cons_self)).bind
    apply Emits.bind (hwrite _)
    exact Emits.bind (hwrite _) hrest

theorem writeIndex_emits {idx : Index} (hidx : ∀ e ∈ idx, e.key.length ≤ maxPackEntrySize) :
    Emits hd Rep (writeIndex write idx) (sortIndex idx) (encodeIndex (sortIndex idx)) := by
  have hsorted : ∀ e ∈ sortIndex idx, e.key.length ≤ maxPackEntrySize :=
    fun e he => hidx e ((perm_sortIndex idx).mem_iff.mp he)
  have hents := (writeIndexEnts_emits hwrite hsorted).bind (f := fun _ => pure (sortIndex idx))
    (emits_pure (sortIndex idx))
  rw [append_nil] at hents
  exact Emits.bind (hwrite _) hents

end Emits

theorem sinkWrite_emits (w₀ : ω) (data : Bytes) :
    Emits fileSink (fun w file d => w = w₀ ∧ file = d) (sinkWrite data) () data := by
  rintro w file d ⟨rfl, rfl⟩
  exact ⟨w, file ++ data, rfl, rfl, rfl⟩

/-- The bytes of a pack with the values `data`. -/
def packBytes (data : Bytes) (idx : Index) : Bytes := data ++ encodeIndex idx ++ leBytes 8 data.length

theorem exec_close {p : PackWriter} {data : Bytes} (hoff : p.offset = data.length)
    (hidx : ∀ e ∈ p.index, e.key.length ≤ maxPackEntrySize) (w : ω) :
    exec fileSink (p.close sinkWrite sinkClose) w data =
      (.ok (sortIndex p.index), w, packBytes data (sortIndex p.index)) := by
  obtain ⟨w₁, file₁, hindex, rfl, hfile₁⟩ := writeIndex_emits (sinkWrite_emits w) hidx w data data ⟨rfl, rfl⟩
  rw [PackWriter.close, exec_bind_ok fileSink hindex, hfile₁, hoff]
  rfl

/-- The writer has taken the pairs `ops`, and the values are in `data`. -/
structure Filled (ops : List (Bytes × Bytes)) (p : PackWriter) (data : Bytes) : Prop where
  nodup : (keys p.index).Nodup
  mem_keys : ∀ k, k ∈ keys p.index ↔ k ∈ ops.map Prod.fst
  offset_eq : p.offset = data.length
  contiguous : Contiguous 0 p.index p.offset
  fits : ∀ e ∈ p.index, e.key.length ≤ maxPackEntrySize ∧ e.size ≤ maxPackEntrySize
  value : ∀ e ∈ p.index, ops.lookup e.key = some ((data.drop e.offset).take e.size)

theorem filled_new (name : Bytes) : Filled [] ⟨name, [], 0⟩ [] := by
  constructor <;> simp [keys, Contiguous]

theorem contiguous_append {c : Index} {off stop : ℕ} (h : Contiguous off c stop) (key : Bytes) (n : ℕ) :
    Contiguous off (c ++ [⟨key, n, stop⟩]) (stop + n) := by
  induction c generalizing off with
  | nil =>
    cases h
    exact ⟨rfl, rfl⟩
  | cons e c ih => exact ⟨h.1, ih h.2⟩

theorem take_drop_append {a : Bytes} {off n : ℕ} (h : off + n ≤ a.length) (b : Bytes) :
    ((a ++ b).drop off).take n = (a.drop off).take n := by
  rw [List.drop_append_of_le_length (by omega), List.take_append_of_le_length]
  rw [List.length_drop]
  omega

theorem lookup_eq_none {ops : List (Bytes × Bytes)} {k : Bytes} (h : k ∉ ops.map Prod.fst) : ops.lookup k = none := by
  rw [List.lookup_eq_none_iff]
  intro x hx
  have hne : k ≠ x.1 := fun heq => h (heq ▸ List.mem_map_of_mem hx)
  simpa using hne

theorem lookup_append_of_mem {ops : List (Bytes × Bytes)} {k : Bytes} (h : k ∈ ops.map Prod.fst)
    (more : List (Bytes × Bytes)) : (ops ++ more).lookup k = ops.lookup k := by
  rw [List.lookup_append]
  cases hl : ops.lookup k with
  | some v => rfl
  | none =>
    obtain ⟨x, hx, rfl⟩ := mem_map.mp h
    exact absurd (List.lookup_eq_none_iff.mp hl x hx) (by simp)

variable {p : PackWriter} {val : Bytes}

section

variable (h : Filled ops p data)
include h

theorem Filled.again (hkey : key ∈ keys p.index) : Filled (ops ++ [(key, val)]) p data where
  nodup := h.nodup
  mem_keys k := by
    have hk := (h.mem_keys key).mp hkey
    rw [h.mem_keys, map_append, mem_append]
    constructor
    · exact Or.inl
    · intro hor
      rcases hor with hmem | hmem
      · exact hmem
      · simp only [map_cons, map_nil, mem_singleton] at hmem
        rwa [hmem]
  offset_eq := h.offset_eq
  contiguous := h.contiguous
  fits := h.fits
  value e he := by
    rw [lookup_append_of_mem ((h.mem_keys _).mp (List.mem_map_of_mem he))]
    exact h.value e he

theorem Filled.add (hkey : key ∉ keys p.index)
    (hk : key.length ≤ maxPackEntrySize) (hv : val.length ≤ maxPackEntrySize) :
    Filled (ops ++ [(key, val)])
      { p with index := p.index ++ [⟨key, val.length, p.offset⟩], offset := p.offset + val.length }
      (data ++ val) where
  nodup := by
    simp only [keys, map_append, map_cons, map_nil] at hkey ⊢
    exact List.Nodup.append h.nodup (List.nodup_singleton key) (by simpa using hkey)
  mem_keys k := by
    have := h.mem_keys k
    simp only [keys, map_append, mem_append, map_cons, map_nil] at this ⊢
    rw [this]
  offset_eq := by simp [h.offset_eq]
  contiguous := contiguous_append h.contiguous key val.length
  fits e he := by
    rcases mem_append.mp he with he | he
    · exact h.fits e he
    · rw [mem_singleton.mp he]
      exact ⟨hk, hv⟩
  value e he := by
    rcases mem_append.mp he with he | he
    · -- the older values keep their place in the longer data
      have hend := (h.contiguous.bounds he).2
      rw [h.offset_eq] at hend
      rw [lookup_append_of_mem ((h.mem_keys _).mp (List.mem_map_of_mem he)), h.value e he, take_drop_append hend]
    · rw [mem_singleton.mp he]
      rw [List.lookup_append, lookup_eq_none (mt (h.mem_keys key).mpr hkey), h.offset_eq, drop_left, List.take_length]
      simp

theorem add_spec {ω : Type} (hk : key.length ≤ maxPackEntrySize)
    (hv : val.length ≤ maxPackEntrySize) (w : ω) : ∃ p' data',
      exec fileSink (p.add sinkWrite key val) w data = (.ok p', w, data') ∧
      Filled (ops ++ [(key, val)]) p' data' := by
  rw [PackWriter.add]
  by_cases hkey : key ∈ keys p.index
  · rw [if_pos hkey]
    exact ⟨p, data, rfl, h.again hkey⟩
  · rw [if_neg hkey, if_neg (by omega)]
    exact ⟨_, _, rfl, h.add hkey hk hv⟩

theorem addAll_spec {ω : Type} (more : List (Bytes × Bytes))
    (hmore : ∀ x ∈ more, x.1.length ≤ maxPackEntrySize ∧ x.2.length ≤ maxPackEntrySize) (w : ω) :
    ∃ p' data', exec fileSink (p.addAll sinkWrite more) w data = (.ok p', w, data') ∧
      Filled (ops ++ more) p' data' := by
  induction more generalizing ops p data with
  | nil => exact ⟨p, data, rfl, by rwa [append_nil]⟩
  | cons x more ih =>
    obtain ⟨hk, hv⟩ := hmore x mem_cons_self
    obtain ⟨p₁, data₁, hadd, hfilled⟩ := add_spec h hk hv w
    obtain ⟨p', data', hrun, hfilled'⟩ := ih hfilled (fun y hy => hmore y (List.mem_cons_of_mem x hy))
    refine ⟨p', data', ?_, by simpa using hfilled'⟩
    rw [PackWriter.addAll, exec_bind_ok fileSink hadd, hrun]

end

theorem writePack_spec (name : Bytes) (ops : List (Bytes × Bytes))
    (hops : ∀ x ∈ ops, x.1.length ≤ maxPackEntrySize ∧ x.2.length ≤ maxPackEntrySize) :
    ∃ p data, Filled ops p data ∧ exec fileSink (writePack name ops) () [] =
      (.ok (sortIndex p.index), (), packBytes data (sortIndex p.index)) := by
  obtain ⟨p, data, hrun, hfilled⟩ := addAll_spec (filled_new name) ops hops ()
  refine ⟨p, data, by simpa using hfilled, ?_⟩
  rw [writePack, exec_bind_ok fileSink hrun, exec_close hfilled.offset_eq (fun e he => (hfilled.fits e he).1)]

end Write

section Read

variable {f : Handle ρ}

theorem length_packBytes (data : Bytes) (idx : Index) :
    (packBytes data idx).length = data.length + (encodeIndex idx).length + 8 := by
  simp only [packBytes, length_append, length_leBytes]

theorem length_le_encodeIndex (idx : Index) : idx.length ≤ (encodeIndex idx).length := by
  rw [encodeIndex_eq, length_append, length_leBytes]
  induction idx with
  | nil => simp
  | cons e idx ih =>
    have : 0 < (encodeEnt e).length := by simp [encodeEnt]
    simp only [flatMap_cons, length_append, List.length_cons]
    omega

theorem int64_natCast {n : ℕ} (h : n < 2 ^ 63) : int64 (n : ℤ) = n := int64_of_lt (by omega) (by omega)

section

variable (hf : f.Serves (packBytes data idx) stream Inv) (hlen : (packBytes data idx).length < 2 ^ 63)
  (hidx : ∀ e ∈ idx, Fits e)
include hf hlen hidx

theorem index_served {r : ρ} (hr : Inv r) :
    ∃ r₁ r₂ r₃, f.seek r ((packBytes data idx).length - 8 : ℕ) = (.ok (), r₁) ∧
      readUint64 f.read r₁ = (.ok data.length, r₂) ∧ f.seek r₂ (data.length : ℕ) = (.ok (), r₃) ∧
      PackFile.readIndex f.read r₃ = .ok idx ∧ Inv r₃ := by
  have hpack := length_packBytes data idx
  obtain ⟨r₁, hseek₁, hr₁, hs₁⟩ := hf.seek_ok r ((packBytes data idx).length - 8) hr (by omega)
  have htrailer : stream r₁ = leBytes 8 data.length ++ [] := by
    rw [hs₁, show (packBytes data idx).length - 8 = (data ++ encodeIndex idx).length by simp; omega,
      packBytes, drop_left, append_nil]
  obtain ⟨r₂, hread, hr₂, -⟩ := readUint64_yields hf.delivers hr₁ htrailer (by omega)
  obtain ⟨r₃, hseek₃, hr₃, hs₃⟩ := hf.seek_ok r₂ data.length hr₂ (by omega)
  have hindex : stream r₃ = encodeIndex idx ++ leBytes 8 data.length := by
    rw [hs₃, packBytes, append_assoc, drop_left]
  have hidxlen : idx.length < 2 ^ 64 := by
    have := length_le_encodeIndex idx
    omega
  exact ⟨r₁, r₂, r₃, hseek₁, hread, hseek₃, readIndex_encodeIndex hf.delivers hidx hidxlen hr₃ hindex, hr₃⟩

theorem readIndex_served {p : PackFile.Reader ρ} (hp : Inv p.r) (hsize : p.size = (packBytes data idx).length) :
    ∃ r, p.readIndex f = (.ok (), { p with r := r, idx := idx }) ∧ Inv r := by
  have hpack := length_packBytes data idx
  obtain ⟨r₁, r₂, r₃, hseek₁, hread, hseek₃, hindex, hr₃⟩ := index_served hf hlen hidx hp
  refine ⟨r₃, ?_, hr₃⟩
  have hsize8 : int64 p.size - 8 = ((packBytes data idx).length - 8 : ℕ) := by
    rw [int64_natCast (by omega)]
    omega
  rw [PackFile.Reader.readIndex, hsize8, hseek₁]
  simp only [hread, int64_natCast (show data.length < 2 ^ 63 by omega), hseek₃, hindex]

end

theorem getAt_served {file : Bytes} (hf : f.Serves file stream Inv) (hlen : file.length < 2 ^ 63)
    (off sz : ℕ) (hend : off + sz ≤ file.length) {p : PackFile.Reader ρ} (hp : Inv p.r) :
    ∃ r, p.getAt f off sz = (.ok ((file.drop off).take sz), { p with r := r }) ∧ Inv r := by
  obtain ⟨r₁, hseek, hr₁, hs₁⟩ := hf.seek_ok p.r off hp (by omega)
  have hleft : sz ≤ (stream r₁).length := by
    rw [hs₁, List.length_drop]
    omega
  obtain ⟨r₂, hread, hr₂, -⟩ := readFull_yields hf.delivers hr₁ hleft
  refine ⟨r₂, ?_, hr₂⟩
  rw [PackFile.Reader.getAt, int64_natCast (by omega), hseek]
  simp only [hread, hs₁]

/-- What a map that holds the first value of every key answers. -/
def answer (ops : List (Bytes × Bytes)) (key : Bytes) : Except GoError Bytes :=
  match ops.lookup key with
  | some val => .ok val
  | none => .error notFound

variable {w : PackWriter}

theorem get_served (hw : Filled ops w data) (hf : f.Serves (packBytes data (sortIndex w.index)) stream Inv)
    (hlen : (packBytes data (sortIndex w.index)).length < 2 ^ 63) {p : PackFile.Reader ρ} (hp : Inv p.r)
    (hidx : p.idx = sortIndex w.index) (key : Bytes) :
    ∃ r, p.get f key = (answer ops key, { p with r := r }) ∧ Inv r := by
  have hsorted := keysIncrease_sortIndex hw.nodup
  rw [PackFile.Reader.get]
  cases hsearch : search p.idx key with
  | none =>
    rw [hidx, search_eq_none_iff hsorted, mem_keys_sortIndex, hw.mem_keys] at hsearch
    refine ⟨p.r, ?_, hp⟩
    simp only [answer, lookup_eq_none hsearch]
  | some e =>
    rw [hidx] at hsearch
    obtain ⟨he, rfl⟩ := (search_eq_some_iff hsorted).mp hsearch
    have he := (perm_sortIndex w.index).mem_iff.mp he
    have hend := (hw.contiguous.bounds he).2
    rw [hw.offset_eq] at hend
    have hpack := length_packBytes data (sortIndex w.index)
    obtain ⟨r, hget, hr⟩ := getAt_served hf hlen e.offset e.size (by omega) hp
    refine ⟨r, ?_, hr⟩
    have hval : ((packBytes data (sortIndex w.index)).drop e.offset).take e.size =
        (data.drop e.offset).take e.size := by
      rw [packBytes, append_assoc, take_drop_append hend]
    simp only [answer, hw.value e he, hget, hval]

def getAll (f : Handle ρ) : List Bytes → PackFile.Reader ρ → List (Except GoError Bytes)
  | [], _ => []
  | key :: keys, p => (p.get f key).1 :: getAll f keys (p.get f key).2

theorem getAll_served (hw : Filled ops w data) (hf : f.Serves (packBytes data (sortIndex w.index)) stream Inv)
    (hlen : (packBytes data (sortIndex w.index)).length < 2 ^ 63) {p : PackFile.Reader ρ} (hp : Inv p.r)
    (hidx : p.idx = sortIndex w.index) (keys : List Bytes) : getAll f keys p = keys.map (answer ops) := by
  induction keys generalizing p with
  | nil => rfl
  | cons key keys ih =>
    obtain ⟨r, hget, hr⟩ := get_served hw hf hlen hp hidx key
    have hrest := ih (p := { p with r := r }) hr hidx
    rw [getAll, hget, hrest, map_cons]

end Read

/-- The entries of an index in the order of their offsets fill the bytes up to `stop`. -/
def FillsUpTo (idx : Index) (stop : ℕ) : Prop :=
  ∃ c, c.Perm idx ∧ c.Pairwise (fun a b => a.offset ≤ b.offset) ∧ Contiguous 0 c stop

theorem Contiguous.sorted {c : Index} {off stop : ℕ} (h : Contiguous off c stop) :
    c.Pairwise (fun a b => a.offset ≤ b.offset) := by
  induction c generalizing off with
  | nil => exact List.Pairwise.nil
  | cons e c ih =>
    apply List.Pairwise.cons
    · intro x hx
      have hle := (Contiguous.bounds h.2 hx).1
      have hoff := h.1
      omega
    · exact ih h.2

/-- A pack is a map. The index of a closed pack is read back, and every sequence of `Get`
calls answers as the map of the first values. A Go byte slice is shorter than `2 ^ 63`. -/
theorem pack_is_map (name : Bytes) (ops : List (Bytes × Bytes))
    (hops : ∀ x ∈ ops, x.1.length ≤ maxPackEntrySize ∧ x.2.length ≤ maxPackEntrySize) :
    ∃ idx file, Method.exec fileSink (writePack name ops) () [] = (.ok idx, (), file) ∧
      (file.length < 2 ^ 63 → ∃ p,
        (PackFile.newReader ⟨file, 0⟩ file.length).readIndex bytesReader = (.ok (), p) ∧ p.idx = idx ∧
        KeysIncrease idx ∧
        (∀ keys, getAll bytesReader keys p = keys.map (answer ops)) ∧
        ∃ off, file.drop (file.length - 8) = leBytes 8 off ∧ off < 2 ^ 63 ∧ FillsUpTo idx off) := by
  obtain ⟨w, data, hw, hrun⟩ := writePack_spec name ops hops
  refine ⟨_, _, hrun, ?_⟩
  intro hlen
  have hpack := length_packBytes data (sortIndex w.index)
  have hserves := bytesReader_serves (packBytes data (sortIndex w.index))
  have hfits : ∀ e ∈ sortIndex w.index, Fits e := by
    intro e he
    have he := (perm_sortIndex w.index).mem_iff.mp he
    have hend := (hw.contiguous.bounds he).2
    have hoff := hw.offset_eq
    have hmax := hw.fits e he
    simp only [maxPackEntrySize] at hmax
    constructor <;> omega
  obtain ⟨r, hread, hr⟩ := readIndex_served hserves hlen hfits (p := PackFile.newReader
    ⟨packBytes data (sortIndex w.index), 0⟩ (packBytes data (sortIndex w.index)).length) rfl rfl
  refine ⟨_, hread, rfl, keysIncrease_sortIndex hw.nodup, ?_, data.length, ?_, by omega, ?_⟩
  · exact getAll_served hw hserves hlen hr rfl
  · rw [hpack, Nat.add_sub_cancel, ← List.length_append, packBytes, List.drop_left]
  · refine ⟨w.index, (perm_sortIndex w.index).symm, Contiguous.sorted hw.contiguous, ?_⟩
    rw [← hw.offset_eq]
    exact hw.contiguous

/-- A key that is added twice. -/
theorem pack_is_map_twice : ∃ idx file p,
    Method.exec fileSink (writePack [] [([1], [5, 6]), ([1], [9])]) () [] = (.ok idx, (), file) ∧
    (PackFile.newReader ⟨file, 0⟩ file.length).readIndex bytesReader = (.ok (), p) ∧ p.idx = idx ∧
    getAll bytesReader [[1], [2], [1]] p = [.ok [5, 6], .error notFound, .ok [5, 6]] := by
  obtain ⟨idx, file, hrun, hread⟩ := pack_is_map [] [([1], [5, 6]), ([1], [9])] (by decide)
  have hfile : Method.exec fileSink (writePack [] [([1], [5, 6]), ([1], [9])]) () [] =
      (.ok (sortIndex [⟨[1], 2, 0⟩]), (), packBytes [5, 6] (sortIndex [⟨[1], 2, 0⟩])) :=
    exec_close (p := ⟨[], [⟨[1], 2, 0⟩], 2⟩) rfl (by decide) ()
  rw [hfile] at hrun
  cases hrun
  obtain ⟨p, hp, hidx, -, hget, -⟩ := hread (by simp [sortIndex, packBytes, encodeIndex])
  exact ⟨_, _, p, hfile, hp, hidx, hget _⟩

end Bpy.PackRoundTrip
