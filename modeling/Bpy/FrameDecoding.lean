import Bpy.RemoteMessages

/-!
# Frames of any bytes

`ReadMessage` for a peer that sends what it likes. The declared size is checked against the
buffer but not from below: a size under four is out of range of `buf[4:sz]`, and for a size of
four `buf[4]` is. Every other stream gives a message or an error.
-/
namespace Bpy.FrameDecoding
open ByteWords ContentStore ByteSources RemoteMessages
open List

/-- A message or an error, not a panic. -/
def Returns {α : Type} (x : Except GoError α) : Prop := ∀ msg, x ≠ .error (.panic msg)

section Unpack

variable {α β : Type}

theorem returns_ok (a : α) : Returns (.ok a : Except GoError α) := nofun

theorem Returns.error {e : GoError} (h : Returns (.error e : Except GoError α)) :
    Returns (.error e : Except GoError β) := by
  intro msg he
  cases he
  exact h msg rfl

theorem Returns.bind {x : Except GoError α} {f : α → Except GoError β} (hx : Returns x)
    (hf : ∀ a, Returns (f a)) : Returns (x >>= f) := by
  cases x with
  | ok a => exact hf a
  | error e => exact hx.error

theorem returns_cut (n : ℕ) (buf : Bytes) : Returns (cut n buf) := by
  rw [cut]
  split
  · exact nofun
  · exact nofun

theorem returns_unpackField (k : Kind) (buf : Bytes) : Returns (unpackField k buf) := by
  cases k with
  | bool => exact (returns_cut _ _).bind (fun _ => returns_ok _)
  | uint16 => exact (returns_cut _ _).bind (fun _ => returns_ok _)
  | uint32 => exact (returns_cut _ _).bind (fun _ => returns_ok _)
  | uint64 => exact (returns_cut _ _).bind (fun _ => returns_ok _)
  | string => exact (returns_cut _ _).bind (fun _ => returns_cut _ _)
  | slice => exact (returns_cut _ _).bind (fun _ => returns_cut _ _)

theorem returns_unpackFields (ks : List Kind) (buf : Bytes) : Returns (unpackFields ks buf) := by
  induction ks generalizing buf with
  | nil =>
    rw [unpackFields]
    split
    · exact nofun
    · exact nofun
  | cons k ks ih =>
    have hfield := returns_unpackField k buf
    rw [unpackFields]
    cases hk : unpackField k buf with
    | error e => exact (hk ▸ hfield).error
    | ok p =>
      have hrest := ih p.2
      dsimp only
      cases hks : unpackFields ks p.2 with
      | error e => exact (hks ▸ hrest).error
      | ok vs => exact returns_ok _

theorem returns_unpackMessage {buf : Bytes} (h : 5 ≤ buf.length) : Returns (unpackMessage buf) := by
  rw [unpackMessage, List.getElem?_eq_getElem (by omega)]
  dsimp only
  cases unpackType buf[4] with
  | none => exact nofun
  | some t =>
    have hfields := returns_unpackFields t.kinds (buf.drop 5)
    dsimp only
    cases hks : unpackFields t.kinds (buf.drop 5) with
    | error e => exact (hks ▸ hfields).error
    | ok vals => exact returns_ok _

theorem unpackMessage_of_short {buf : Bytes} (h : buf.length < 5) :
    unpackMessage buf = .error (.panic "index out of range") := by
  rw [unpackMessage, List.getElem?_eq_none (by omega)]

end Unpack

section Read

variable {ρ : Type} {read : ReadFn ρ} {stream : ρ → Bytes} {Inv : ρ → Prop} {len : ℕ} {r : ρ}

theorem liftExcept_fst {α : Type} (x : Except GoError α) : ((liftExcept x : SourceM ρ α) r).1 = x := by
  cases x <;> rfl

variable {head : Bytes}

theorem readMessage_of_head {r₁ : ρ} (hlen : 5 ≤ len) (hhead : readFull read 4 r = (.ok head, r₁)) :
    readMessage read len r = readBody read len head r₁ := by
  rw [readMessage, if_neg (by omega), bind_of_ok hhead]

theorem readMessage_of_error {e : GoError} {r₁ : ρ} (hlen : 5 ≤ len)
    (hhead : readFull read 4 r = (.error e, r₁)) : readMessage read len r = (.error e, r₁) := by
  rw [readMessage, if_neg (by omega), bind_of_error hhead]

theorem readBody_returns (hhead : head.length = 4) (htakes : TakesRead read stream Inv) (hcalm : CalmRead read Inv)
    (hr : Inv r) (hsize : 5 ≤ beNat head ∨ len % 2 ^ 32 < beNat head) : Returns (readBody read len head r).1 := by
  rw [readBody]
  by_cases hlarge : beNat head > len % 2 ^ 32
  · rw [if_pos hlarge]
    exact nofun
  · rw [if_neg hlarge, if_neg (by omega)]
    obtain ⟨hbody, -⟩ := calm_readFull hcalm (beNat head - 4) r hr
    cases hrun : readFull read (beNat head - 4) r with
    | mk res r' =>
      rw [hrun] at hbody
      cases res with
      | error e =>
        rw [bind_of_error hrun]
        exact Returns.error hbody
      | ok body =>
        obtain ⟨-, t, ⟨rfl, hlength⟩, -⟩ := takes_readFull htakes _ r body r' hr hrun
        have hfive : 5 ≤ (head ++ body).length := by
          rw [length_append]
          omega
        rw [bind_of_ok hrun, liftExcept_fst]
        exact returns_unpackMessage hfive

theorem readBody_panics (hhead : head.length = 4) (hsize : beNat head < 5)
    (hfits : beNat head ≤ len % 2 ^ 32) : ∃ msg, (readBody read len head r).1 = .error (.panic msg) := by
  rw [readBody, if_neg (by omega)]
  by_cases hsmall : beNat head < 4
  · rw [if_pos hsmall]
    exact ⟨_, rfl⟩
  · have hbody : readFull read (beNat head - 4) r = (.ok [], r) := by
      rw [show beNat head - 4 = 0 by omega]
      rfl
    rw [if_neg hsmall, bind_of_ok hbody, append_nil, unpackMessage_of_short (by omega)]
    exact ⟨_, rfl⟩

theorem readBody_ok {m : Message} {r' : ρ} (hhead : head.length = 4)
    (htakes : TakesRead read stream Inv) (hr : Inv r) (hrun : readBody read len head r = (.ok m, r')) :
    ∃ body, stream r = body ++ stream r' ∧ (head ++ body).length = beNat head ∧ 5 ≤ beNat head ∧
      beNat head ≤ len := by
  rw [readBody] at hrun
  split at hrun
  · cases hrun
  · next hlarge =>
    split at hrun
    · cases hrun
    · obtain ⟨body, r₁, hbody, hunpack⟩ := bind_eq_ok.mp hrun
      obtain ⟨hm, rfl⟩ := liftExcept_eq_ok.mp hunpack
      obtain ⟨-, t, ⟨rfl, hlength⟩, hs⟩ := takes_readFull htakes _ r body r' hr hbody
      have hfive : ¬ (head ++ body).length < 5 := by
        intro hshort
        rw [unpackMessage_of_short hshort] at hm
        cases hm
      have hmod := Nat.mod_le len (2 ^ 32)
      rw [length_append] at hfive
      refine ⟨body, hs, ?_, by omega, by omega⟩
      rw [length_append]
      omega

end Read

section Total

variable {ρ : Type} (read : ReadFn ρ) (stream : ρ → Bytes) (len : ℕ) (r : ρ)

/-- `ReadMessage` returns, and a message that it returns was framed by its size. -/
structure Total : Prop where
  returns : Returns (readMessage read len r).1
  framed : ∀ m r', readMessage read len r = (.ok m, r') → ∃ frame, stream r = frame ++ stream r' ∧
    frame.length = beNat (frame.take 4) ∧ 5 ≤ frame.length ∧ frame.length ≤ len

/-- If the size can be read at all, it has room for the type of the message or is too large for
the buffer. -/
def Sized : Prop := ∀ r₁, readFull read 4 r = (.ok ((stream r).take 4), r₁) →
  5 ≤ beNat ((stream r).take 4) ∨ len % 2 ^ 32 < beNat ((stream r).take 4)

theorem readMessage_total_iff {Inv : ρ → Prop} (htakes : TakesRead read stream Inv) (hcalm : CalmRead read Inv)
    (hlen : 5 ≤ len) (hr : Inv r) : Total read stream len r ↔ Sized read stream len r := by
  cases hrun : readFull read 4 r with
  | mk res r₁ =>
    cases res with
    | error e =>
      have hmsg := readMessage_of_error hlen hrun
      have hreturns := (calm_readFull hcalm 4 r hr).1
      rw [hrun] at hreturns
      constructor
      · intro _ r₂ h
        cases hrun.symm.trans h
      · intro _
        refine ⟨?_, fun m r' h => ?_⟩
        · rw [hmsg]
          exact Returns.error hreturns
        · cases hmsg.symm.trans h
    | ok head =>
      obtain ⟨hr₁, t, ⟨rfl, hhead⟩, hs⟩ := takes_readFull htakes 4 r head r₁ hr hrun
      have hmsg := readMessage_of_head hlen hrun
      have hfront : (stream r).take 4 = head := by rw [hs, List.take_left' hhead]
      constructor
      · intro htotal r₂ _
        rw [hfront]
        by_contra hsize
        have hpanic : ∃ msg, (readBody read len head r₁).1 = .error (.panic msg) :=
          readBody_panics hhead (by omega) (by omega)
        obtain ⟨msg, hpanic⟩ := hpanic
        exact htotal.returns msg (by rw [hmsg, hpanic])
      · intro hsized
        have hsize := hsized r₁ (by rw [hrun, hfront])
        rw [hfront] at hsize
        refine ⟨?_, fun m r' h => ?_⟩
        · rw [hmsg]
          exact readBody_returns hhead htakes hcalm hr₁ hsize
        · obtain ⟨body, hbody, hlength, hfive, hle⟩ := readBody_ok hhead htakes hr₁ (hmsg.symm.trans h)
          refine ⟨head ++ body, ?_, ?_, by omega, by omega⟩
          · rw [hs, hbody, List.append_assoc]
          · rw [List.take_left' hhead, hlength]

end Total

theorem takesRead_fileRead : TakesRead fileRead (fun r : Bytes => r) (fun _ => True) := by
  intro r n out r' _ _ h
  rw [fileRead] at h
  split at h
  · cases h
  · cases h
    exact ⟨trivial, length_take_le _ _, (take_append_drop n r).symm⟩

theorem calmRead_fileRead : CalmRead fileRead (fun _ => True) := by
  intro r n _ hn
  rw [fileRead]
  split
  · exact ⟨by simp, by simp, trivial⟩
  · next hr =>
    refine ⟨by simp, fun out hout => ?_, trivial⟩
    cases hout
    simp [hr, hn.ne']

/-- A frame of seven bytes. -/
theorem readMessage_total_getRoot : Total fileRead (fun r => r) 16 [0, 0, 0, 7, 21, 0, 1] :=
  (readMessage_total_iff fileRead (fun r => r) 16 [0, 0, 0, 7, 21, 0, 1] takesRead_fileRead calmRead_fileRead
    (by decide) trivial).mpr (fun _ _ => by decide)

/-- Four bytes that declare a frame of four bytes. -/
theorem not_total_of_size_four :
    (readMessage fileRead 16 [0, 0, 0, 4]).1 = .error (.panic "index out of range") ∧
      ¬ Total fileRead (fun r => r) 16 [0, 0, 0, 4] :=
  ⟨rfl, fun h => h.returns _ rfl⟩

end Bpy.FrameDecoding
