import Bpy.Commands

/-!
# The signature of the root

`remote.GetRoot` and `remote.CasRoot`. The signed string is the value of the root, a
colon and its version, and neither part is escaped. The server may answer anything, but it
knows only signatures that it has been sent. `mac` is HMAC-SHA256 under the drive's key.
-/
namespace Bpy.RootSignatures
open ByteWords InteractionPrograms ContentStore Commands Method List

section Hex

/-- `fromHexChar`. Both cases of the letters are accepted. -/
def fromHexChar (c : UInt8) : Option UInt8 :=
  if 48 ≤ c ∧ c ≤ 57 then some (c - 48)
  else if 97 ≤ c ∧ c ≤ 102 then some (c - 97 + 10)
  else if 65 ≤ c ∧ c ≤ 70 then some (c - 65 + 10)
  else none

def errInvalidByte (c : UInt8) : GoError := .format "encoding/hex: invalid byte: %#U" [c]

/-- `hex.Decode`. -/
def hexDecode : Bytes → Except GoError Bytes
  | [] => .ok []
  | [_] => .error (.text "encoding/hex: odd length hex string")
  | a :: b :: src =>
    match fromHexChar a, fromHexChar b with
    | none, _ => .error (errInvalidByte a)
    | some _, none => .error (errInvalidByte b)
    | some hi, some lo => do
      let rest ← hexDecode src
      pure ((hi * 16 + lo) :: rest)

def parseHash (hashstr : Bytes) : Except GoError Hash :=
  if hashstr.length ≠ 64 then .error (.text "bad length")
  else do
    let data ← hexDecode hashstr
    pure (Hash.copy data)

theorem fromHexChar_hexDigit (n : UInt8) (hn : n < 16) : fromHexChar (hexDigit n) = some n := by
  have hall : ∀ k : Fin 16, fromHexChar (hexDigit (UInt8.ofNat k)) = some (UInt8.ofNat k) := by decide
  have hk := hall ⟨n.toNat, UInt8.lt_iff_toNat_lt.mp hn⟩
  rwa [UInt8.ofNat_toNat] at hk

theorem hexDigits_byte (b : UInt8) : b / 16 < 16 ∧ b % 16 < 16 ∧ b / 16 * 16 + b % 16 = b := by
  have hb := b.toNat_lt
  have hdiv : (b / 16).toNat = b.toNat / 16 := UInt8.toNat_div b 16
  have hmod : (b % 16).toNat = b.toNat % 16 := UInt8.toNat_mod b 16
  constructor
  · rw [UInt8.lt_iff_toNat_lt, hdiv]
    change b.toNat / 16 < 16
    omega
  constructor
  · rw [UInt8.lt_iff_toNat_lt, hmod]
    exact Nat.mod_lt _ (by decide)
  · apply UInt8.toNat_inj.mp
    rw [UInt8.toNat_add, UInt8.toNat_mul, hdiv, hmod]
    change (b.toNat / 16 * 16 % 2 ^ 8 + b.toNat % 16) % 2 ^ 8 = b.toNat
    omega

theorem hexDecode_hexEncode (data : Bytes) : hexDecode (hexEncode data) = .ok data := by
  induction data with
  | nil => rfl
  | cons b data ih =>
    obtain ⟨hhi, hlo, hb⟩ := hexDigits_byte b
    have hsplit : hexEncode (b :: data) = hexDigit (b / 16) :: hexDigit (b % 16) :: hexEncode data := rfl
    rw [hsplit, hexDecode, fromHexChar_hexDigit _ hhi, fromHexChar_hexDigit _ hlo, ih]
    simp only [bind, Except.bind, pure, Except.pure, hb]

theorem length_hexEncode (data : Bytes) : (hexEncode data).length = 2 * data.length := by
  induction data with
  | nil => rfl
  | cons b data ih =>
    have hsplit : hexEncode (b :: data) = hexDigit (b / 16) :: hexDigit (b % 16) :: hexEncode data := rfl
    rw [hsplit, length_cons, length_cons, length_cons, ih]
    omega

theorem length_hexEncode_hash (h : Hash) : (hexEncode h.bytes).length = 64 := by
  rw [length_hexEncode, h.length_bytes]

theorem parseHash_hexEncode (h : Hash) : parseHash (hexEncode h.bytes) = .ok h := by
  rw [parseHash, if_neg (fun hne => hne (length_hexEncode_hash h)), hexDecode_hexEncode]
  simp only [bind, Except.bind, pure, Except.pure, Hash.copy_bytes]

theorem length_of_parseHash {value : Bytes} {h : Hash} (hparse : parseHash value = .ok h) : value.length = 64 := by
  by_contra hlen
  simp [parseHash, hlen] at hparse

end Hex

section Model

variable (mac : Bytes → Bytes)

/-- What is signed: `fmt.Sprintf("%s:%s", value, version)`. -/
def toSign (value version : Bytes) : Bytes := value ++ 58 :: version

def signValue (value version : Bytes) : Bytes := hexEncode (mac (toSign value version))

structure RGetRoot where
  value : Bytes
  version : Bytes
  signature : Bytes
  ok : Bool

structure TCasRoot where
  value : Bytes
  version : Bytes
  signature : Bytes
  epoch : Bytes

inductive RootRequest where
  | getRoot
  | casRoot (m : TCasRoot)

abbrev RootRequest.Response : RootRequest → Type
  | .getRoot => Except GoError RGetRoot
  | .casRoot _ => Except GoError Bool

abbrev RootM (α : Type) := Method RootRequest RootRequest.Response GoError Unit α

def errRootSignatureFailed : GoError := .text "root signature failed! corruption or tampering detected!"

/-- `remote.GetRoot`: the hash, the version and whether there is a root. -/
def getRoot : RootM (Hash × Bytes × Bool) := do
  let r ← Method.send .getRoot id
  if !r.ok then pure (Hash.zero, r.version, false)
  else
    let signature := signValue mac r.value r.version
    if signature ≠ r.signature then Method.raise errRootSignatureFailed
    else
      let h ← Method.ofExcept (parseHash r.value)
      pure (h, r.version, true)

/-- The message that `remote.CasRoot` sends. -/
def casMessage (newHash : Hash) (newVersion epoch : Bytes) : TCasRoot :=
  let newValue := hexEncode newHash.bytes
  ⟨newValue, newVersion, signValue mac newValue newVersion, epoch⟩

def casRoot (newHash : Hash) (newVersion epoch : Bytes) : RootM Bool :=
  Method.send (.casRoot (casMessage mac newHash newVersion epoch)) id

end Model

section History

variable (mac : Bytes → Bytes)

/-- What the clients of a drive do, and what the server answers them. -/
inductive Event where
  /-- a client calls `CasRoot` -/
  | casRoot (newHash : Hash) (newVersion epoch : Bytes)
  /-- the server answers a client's `TGetRoot` -/
  | getRoot (r : RGetRoot)

/-- The strings that clients have signed. Signatures are made in `CasRoot` only. -/
def signed : List Event → List Bytes
  | [] => []
  | .casRoot newHash newVersion _ :: es => toSign (hexEncode newHash.bytes) newVersion :: signed es
  | .getRoot _ :: es => signed es

/-- If the signature of the answer is right, the string that it signs was signed before. -/
def Unforged (before : List Event) (r : RGetRoot) : Prop :=
  r.signature = signValue mac r.value r.version → toSign r.value r.version ∈ signed before

/-- In the history no signature is forged. -/
def Genuine (es : List Event) : Prop :=
  ∀ before r after, es = before ++ .getRoot r :: after → Unforged mac before r

/-- The server that answers `TGetRoot` by `r`. -/
def answering (r : RGetRoot) : (q : RootRequest) → Unit → q.Response × Unit
  | .getRoot, s => (.ok r, s)
  | .casRoot _, s => (.ok false, s)

variable {mac}

theorem checked_of_getRoot {r : RGetRoot} {h : Hash} {version : Bytes}
    (hget : (exec (answering r) (getRoot mac) () ()).1 = .ok (h, version, true)) :
    r.signature = signValue mac r.value r.version ∧ parseHash r.value = .ok h ∧ r.version = version := by
  simp only [getRoot, exec_bind, exec_send, answering, id] at hget
  split at hget
  · simp at hget
  · split at hget
    · simp at hget
    · rename_i hsignature
      simp only [exec_bind, exec_ofExcept] at hget
      cases hparse : parseHash r.value with
      | error e => simp [hparse] at hget
      | ok h' =>
        simp only [hparse, exec_pure, Except.ok.injEq, Prod.mk.injEq, and_true] at hget
        exact ⟨(not_not.mp hsignature).symm, by rw [hget.1], hget.2⟩

theorem toSign_inj {value value' version version' : Bytes} (hlen : value.length = value'.length)
    (h : toSign value version = toSign value' version') : value = value' ∧ version = version' := by
  obtain ⟨hvalue, hrest⟩ := append_inj h hlen
  exact ⟨hvalue, (cons.inj hrest).2⟩

theorem mem_signed {es : List Event} {msg : Bytes} (h : msg ∈ signed es) :
    ∃ newHash newVersion epoch, Event.casRoot newHash newVersion epoch ∈ es ∧
      toSign (hexEncode newHash.bytes) newVersion = msg := by
  induction es with
  | nil => simp [signed] at h
  | cons e es ih =>
    cases e with
    | casRoot newHash newVersion epoch =>
      rw [signed] at h
      rcases mem_cons.mp h with rfl | h
      · exact ⟨newHash, newVersion, epoch, mem_cons_self, rfl⟩
      · obtain ⟨h', v, e, hmem, heq⟩ := ih h
        exact ⟨h', v, e, mem_cons_of_mem _ hmem, heq⟩
    | getRoot r =>
      obtain ⟨h', v, e, hmem, heq⟩ := ih h
      exact ⟨h', v, e, mem_cons_of_mem _ hmem, heq⟩

/-- A root that `GetRoot` returns was swapped in by an earlier call of `CasRoot`. -/
theorem getRoot_authentic {before after : List Event} {r : RGetRoot} {h : Hash} {version : Bytes}
    (hgenuine : Genuine mac (before ++ .getRoot r :: after))
    (hget : (Method.exec (answering r) (getRoot mac) () ()).1 = .ok (h, version, true)) :
    ∃ epoch, Event.casRoot h version epoch ∈ before := by
  obtain ⟨hsignature, hparse, hversion⟩ := checked_of_getRoot hget
  have hsigned := hgenuine before r after rfl hsignature
  obtain ⟨newHash, newVersion, epoch, hmem, hmsg⟩ := mem_signed hsigned
  have hlen : (hexEncode newHash.bytes).length = r.value.length := by
    rw [length_hexEncode_hash, length_of_parseHash hparse]
  obtain ⟨hvalue, hversion'⟩ := toSign_inj hlen hmsg
  rw [← hvalue, parseHash_hexEncode, Except.ok.injEq] at hparse
  subst hparse
  rw [← hversion, ← hversion']
  exact ⟨epoch, hmem⟩

/-- With a signature of 32 bytes, two roots are swapped in and the second is read back. -/
theorem getRoot_authentic_two_roots : ∃ epoch, Event.casRoot (Hash.copy [1]) (ascii "v2") epoch ∈
    [.casRoot Hash.zero (ascii "v1") (ascii "e"), .casRoot (Hash.copy [1]) (ascii "v2") (ascii "e")] := by
  have hgenuine : Genuine (fun msg => (Hash.copy msg.reverse).bytes)
      ([.casRoot Hash.zero (ascii "v1") (ascii "e"), .casRoot (Hash.copy [1]) (ascii "v2") (ascii "e")] ++
        .getRoot ⟨hexEncode (Hash.copy [1]).bytes, ascii "v2",
          hexEncode (Hash.copy (toSign (hexEncode (Hash.copy [1]).bytes) (ascii "v2")).reverse).bytes, true⟩ :: []) := by
    intro before r after hes _
    -- there is one answer in the history, and both swaps are before it
    rcases before with _ | ⟨e₁, _ | ⟨e₂, _ | ⟨e₃, before⟩⟩⟩
    · cases hes
    · cases hes
    · cases hes
      exact mem_cons_of_mem _ mem_cons_self
    · simp at hes
  exact getRoot_authentic hgenuine (by decide +kernel)

end History

end Bpy.RootSignatures
