import Bpy.ContentStore

/-!
# Byte sources

A source is a state `ρ` with a `Read` that returns at least one byte or an error.
`readFull` is `io.ReadFull`, and `BufReader` is `bufio.Reader` with its buffer of 65536
bytes.
-/
namespace Bpy.ByteSources
open ByteWords ContentStore
open List

abbrev ReadFn (ρ : Type) := ρ → ℕ → Except GoError Bytes × ρ

/-- Code that reads from a source. The source keeps its state when the code fails. -/
abbrev SourceM (ρ α : Type) := ExceptT GoError (StateM ρ) α

/-- Read from the bytes that are left of a plain file. -/
def fileRead : ReadFn Bytes := fun rest n =>
  if rest = [] then (.error .eof, rest) else (.ok (rest.take n), rest.drop n)

variable {ρ : Type} (read : ReadFn ρ)

/-- `n` bytes are missing and `acc` has been read. Every round reads at least one byte. -/
def readFullLoop : ℕ → ℕ → Bytes → ρ → Except GoError Bytes × ρ
  | 0, n, acc, r => (if n = 0 then .ok acc else .error (.panic "out of rounds"), r)
  | rounds + 1, n, acc, r =>
    if n = 0 then (.ok acc, r)
    else match read r n with
      | (.ok out, r') => readFullLoop rounds (n - out.length) (acc ++ out) r'
      | (.error .eof, r') => (.error (if acc = [] then .eof else .unexpectedEOF), r')
      | (.error e, r') => (.error e, r')

/-- `io.ReadFull`. -/
def readFull (n : ℕ) : SourceM ρ Bytes := fun r => readFullLoop read n n [] r

structure BufReader (ρ : Type) where
  src : ρ
  buf : Bytes

def bufRead : ReadFn (BufReader ρ) := fun b n =>
  if b.buf ≠ [] then (.ok (b.buf.take n), { b with buf := b.buf.drop n })
  else if 65536 ≤ n then
    let x := read b.src n
    (x.1, ⟨x.2, []⟩)
  else match read b.src 65536 with
    | (.ok out, src) => (.ok (out.take n), ⟨src, out.drop n⟩)
    | (.error e, src) => (.error e, ⟨src, []⟩)

def readUint64 : SourceM ρ ℕ := do
  let buf ← readFull read 8
  pure (leNat buf)

def readUint24 : SourceM ρ ℕ := do
  let buf ← readFull read 3
  pure (leNat buf)

def readSlice : SourceM ρ Bytes := do
  let l ← readUint24 read
  readFull read l

theorem bind_eq_ok {α β : Type} {x : SourceM ρ α} {f : α → SourceM ρ β} {r r' : ρ} {b : β} :
    (x >>= f) r = (.ok b, r') ↔ ∃ a r₁, x r = (.ok a, r₁) ∧ f a r₁ = (.ok b, r') := by
  change (match x r with
    | (a, r₁) => ExceptT.bindCont f a r₁) = _ ↔ _
  rcases x r with ⟨res, r₁⟩
  cases res with
  | ok a =>
    refine ⟨fun h => ⟨a, r₁, rfl, h⟩, ?_⟩
    rintro ⟨a', r₁', heq, h⟩
    cases heq
    exact h
  | error e =>
    refine ⟨fun h => (nomatch congrArg Prod.fst h), ?_⟩
    rintro ⟨a', r₁', heq, -⟩
    cases heq

theorem bind_of_ok {α β : Type} {x : SourceM ρ α} {f : α → SourceM ρ β} {r r₁ : ρ} {a : α}
    (h : x r = (.ok a, r₁)) : (x >>= f) r = f a r₁ := by
  change (match x r with
    | (a, r₁) => ExceptT.bindCont f a r₁) = _
  rw [h]
  rfl

theorem bind_of_error {α β : Type} {x : SourceM ρ α} {f : α → SourceM ρ β} {r r₁ : ρ} {e : GoError}
    (h : x r = (.error e, r₁)) : (x >>= f) r = (.error e, r₁) := by
  change (match x r with
    | (a, r₁) => ExceptT.bindCont f a r₁) = _
  rw [h]
  rfl

theorem liftExcept_eq_ok {α : Type} {x : Except GoError α} {r r' : ρ} {a : α} :
    (liftExcept x : SourceM ρ α) r = (.ok a, r') ↔ x = .ok a ∧ r' = r := by
  cases x with
  | ok b =>
    constructor
    · intro h
      cases h
      exact ⟨rfl, rfl⟩
    · rintro ⟨h, rfl⟩
      cases h
      rfl
  | error e =>
    constructor
    · intro h
      cases h
    · rintro ⟨h, -⟩
      cases h

theorem readFullLoop_ok {stream : ρ → Bytes} {Inv : ρ → Prop}
    (hread : ∀ r n out r', Inv r → 0 < n → read r n = (.ok out, r') →
      Inv r' ∧ out.length ≤ n ∧ stream r = out ++ stream r')
    {rounds n : ℕ} {acc out : Bytes} {r r' : ρ} (hr : Inv r)
    (h : readFullLoop read rounds n acc r = (.ok out, r')) :
    Inv r' ∧ out.length = acc.length + n ∧ acc ++ stream r = out ++ stream r' := by
  induction rounds generalizing n acc r with
  | zero =>
    rw [readFullLoop] at h
    by_cases hn : n = 0
    · simp only [hn, if_true, Prod.mk.injEq, Except.ok.injEq] at h
      obtain ⟨rfl, rfl⟩ := h
      exact ⟨hr, by simp [hn], rfl⟩
    · simp [hn] at h
  | succ rounds ih =>
    rw [readFullLoop] at h
    by_cases hn : n = 0
    · simp only [hn, if_true, Prod.mk.injEq, Except.ok.injEq] at h
      obtain ⟨rfl, rfl⟩ := h
      exact ⟨hr, by simp [hn], rfl⟩
    · rw [if_neg hn] at h
      split at h
      · next got r₁ heq =>
        obtain ⟨hr₁, hle, hs⟩ := hread r n got r₁ hr (by omega) heq
        obtain ⟨hr', hlen, hstream⟩ := ih hr₁ h
        refine ⟨hr', ?_, ?_⟩
        · rw [hlen, length_append]
          omega
        · rw [hs, ← append_assoc, hstream]
      · simp at h
      · simp at h

/-- `io.Reader` and `io.Seeker`. Offsets are from the start of the file. -/
structure Handle (ρ : Type) where
  read : ReadFn ρ
  seek : ρ → ℤ → Except GoError Unit × ρ

/-- `bytes.Reader`. -/
structure BytesReader where
  s : Bytes
  i : ℕ

def bytesReader : Handle BytesReader where
  read r n := if r.s.length ≤ r.i then (.error .eof, r)
    else (.ok ((r.s.drop r.i).take n), { r with i := r.i + min n (r.s.length - r.i) })
  seek r off := if off < 0 then (.error (.text "bytes.Reader.Seek: negative position"), r)
    else (.ok (), { r with i := off.toNat })

theorem readFull_fileRead_ok {n : ℕ} {out r r' : Bytes} (h : readFull fileRead n r = (.ok out, r')) :
    out.length = n ∧ r = out ++ r' := by
  have hread : ∀ (r : Bytes) (n : ℕ) (out r' : Bytes), True → 0 < n → fileRead r n = (.ok out, r') →
      True ∧ out.length ≤ n ∧ r = out ++ r' := by
    intro r n out r' _ _ h
    rw [fileRead] at h
    split at h
    · simp at h
    · cases h
      exact ⟨trivial, length_take_le _ _, (take_append_drop n r).symm⟩
  obtain ⟨-, hlen, heq⟩ := readFullLoop_ok fileRead hread trivial h
  exact ⟨by simpa using hlen, heq⟩

variable {stream : ρ → Bytes} {Inv : ρ → Prop} {r : ρ} {α β : Type}

section Delivers

/-- As long as bytes of `stream` are left, a read returns some of them, in order. `Inv` is
what the reads keep. -/
def Delivers (stream : ρ → Bytes) (Inv : ρ → Prop) : Prop :=
  ∀ r n, Inv r → 0 < n → stream r ≠ [] → ∃ out r', read r n = (.ok out, r') ∧ Inv r' ∧
    out ≠ [] ∧ out.length ≤ n ∧ stream r = out ++ stream r'

/-- `x` returns `a` and leaves a source with the bytes `rest`. -/
def Yields {α : Type} (stream : ρ → Bytes) (Inv : ρ → Prop) (x : SourceM ρ α) (r : ρ) (a : α)
    (rest : Bytes) : Prop :=
  ∃ r', x r = (.ok a, r') ∧ Inv r' ∧ stream r' = rest

variable {read}

theorem yields_pure {α : Type} (a : α) (hr : Inv r) : Yields stream Inv (pure a) r a (stream r) :=
  ⟨r, rfl, hr, rfl⟩

theorem Yields.bind {α β : Type} {x : SourceM ρ α} {f : α → SourceM ρ β} {a : α} {b : β} {rest rest' : Bytes}
    (hx : Yields stream Inv x r a rest) (hf : ∀ r', Inv r' → stream r' = rest → Yields stream Inv (f a) r' b rest') :
    Yields stream Inv (x >>= f) r b rest' := by
  obtain ⟨r', hrun, hinv, hs⟩ := hx
  obtain ⟨r'', hrun', hinv', hs'⟩ := hf r' hinv hs
  refine ⟨r'', ?_, hinv', hs'⟩
  change (match x r with
    | (a, r₁) => ExceptT.bindCont f a r₁) = _
  rw [hrun]
  exact hrun'

section

variable (h : Delivers read stream Inv)
include h

theorem readFullLoop_delivers {rounds n : ℕ} (acc : Bytes)
    (hr : Inv r) (hn : n ≤ rounds) (hlen : n ≤ (stream r).length) :
    ∃ r', readFullLoop read rounds n acc r = (.ok (acc ++ (stream r).take n), r') ∧ Inv r' ∧
      stream r' = (stream r).drop n := by
  induction rounds generalizing n acc r with
  | zero =>
    obtain rfl : n = 0 := by omega
    exact ⟨r, by simp [readFullLoop], hr, by simp⟩
  | succ rounds ih =>
    rcases Nat.eq_zero_or_pos n with rfl | hpos
    · exact ⟨r, by simp [readFullLoop], hr, by simp⟩
    · have hne : stream r ≠ [] := ne_nil_of_length_pos (by omega)
      obtain ⟨out, r₁, hread, hr₁, hout, hle, hs⟩ := h r n hr hpos hne
      have hout := length_pos_of_ne_nil hout
      have hlen₁ : n - out.length ≤ (stream r₁).length := by
        rw [hs, length_append] at hlen
        omega
      obtain ⟨r', hrun, hr', hs'⟩ := ih (acc ++ out) hr₁ (by omega) hlen₁
      refine ⟨r', ?_, hr', ?_⟩
      · rw [readFullLoop, if_neg (by omega), hread]
        simp only [hrun, hs, take_append, take_of_length_le hle, append_assoc]
      · rw [hs', hs, drop_append, drop_eq_nil_of_le hle, nil_append]

theorem readFull_yields {n : ℕ} (hr : Inv r) (hlen : n ≤ (stream r).length) :
    Yields stream Inv (readFull read n) r ((stream r).take n) ((stream r).drop n) := by
  obtain ⟨r', hrun, hr', hs⟩ := readFullLoop_delivers h [] hr le_rfl hlen
  exact ⟨r', hrun, hr', hs⟩

theorem readFull_yields_append {a rest : Bytes} (hr : Inv r)
    (hs : stream r = a ++ rest) : Yields stream Inv (readFull read a.length) r a rest := by
  have := readFull_yields h (n := a.length) hr (by rw [hs, length_append]; omega)
  rwa [hs, take_left, drop_left] at this

theorem readUint64_yields {n : ℕ} {rest : Bytes} (hr : Inv r)
    (hs : stream r = leBytes 8 n ++ rest) (hn : n < 2 ^ 64) : Yields stream Inv (readUint64 read) r n rest := by
  have hread := readFull_yields_append h hr hs
  rw [length_leBytes] at hread
  apply hread.bind
  intro r' hr' hrest
  rw [leNat_leBytes_of_lt (by simpa using hn), ← hrest]
  exact yields_pure n hr'

theorem readUint24_yields {n : ℕ} {rest : Bytes} (hr : Inv r)
    (hs : stream r = leBytes 3 n ++ rest) (hn : n < 2 ^ 24) : Yields stream Inv (readUint24 read) r n rest := by
  have hread := readFull_yields_append h hr hs
  rw [length_leBytes] at hread
  apply hread.bind
  intro r' hr' hrest
  rw [leNat_leBytes_of_lt (by simpa using hn), ← hrest]
  exact yields_pure n hr'

theorem readSlice_yields {a rest : Bytes} (hr : Inv r) (hs : stream r = leBytes 3 a.length ++ (a ++ rest))
    (ha : a.length < 2 ^ 24) : Yields stream Inv (readSlice read) r a rest := by
  apply (readUint24_yields h hr hs ha).bind
  intro r' hr' hrest
  exact readFull_yields_append h hr' hrest

theorem bufRead_delivers : Delivers (bufRead read) (fun b => b.buf ++ stream b.src) (fun b => Inv b.src) := by
  intro b n hb hn hne
  rw [bufRead]
  split
  · next hbuf =>
    refine ⟨b.buf.take n, _, rfl, hb, ?_, length_take_le _ _, ?_⟩
    · simpa [take_eq_nil_iff, hbuf] using hn.ne'
    · simp only
      rw [← append_assoc, take_append_drop]
  · next hbuf =>
    rw [not_not] at hbuf
    have hne : stream b.src ≠ [] := by simpa [hbuf] using hne
    split
    · obtain ⟨out, r', hread, hr', hout, hle, hs⟩ := h b.src n hb hn hne
      refine ⟨out, ⟨r', []⟩, by rw [hread], hr', hout, hle, ?_⟩
      simp only [hbuf, hs, nil_append]
    · obtain ⟨out, r', hread, hr', hout, hle, hs⟩ := h b.src 65536 hb (by omega) hne
      refine ⟨out.take n, ⟨r', out.drop n⟩, by rw [hread], hr', ?_, length_take_le _ _, ?_⟩
      · simpa [take_eq_nil_iff, hout] using hn.ne'
      · simp only [hbuf, hs, nil_append]
        rw [← append_assoc, take_append_drop]

end

/-- The handle reads the bytes `data`: `Inv` holds of its states, and `stream` is what is left
behind its position. -/
structure Handle.Serves (f : Handle ρ) (data : Bytes) (stream : ρ → Bytes) (Inv : ρ → Prop) :
    Prop where
  delivers : Delivers f.read stream Inv
  seek_ok : ∀ r n, Inv r → n ≤ data.length →
    ∃ r', f.seek r (n : ℕ) = (.ok (), r') ∧ Inv r' ∧ stream r' = data.drop n

theorem bytesReader_serves (data : Bytes) :
    bytesReader.Serves data (fun r => r.s.drop r.i) (fun r => r.s = data) where
  delivers := by
    intro r n hr hn hne
    have hlt : r.i < r.s.length := by simpa [drop_eq_nil_iff] using hne
    refine ⟨_, _, if_neg (by omega), hr, ?_, length_take_le _ _, ?_⟩
    · simp only [ne_eq, take_eq_nil_iff, not_or]
      exact ⟨hn.ne', hne⟩
    · have hlen : min n (r.s.length - r.i) = ((r.s.drop r.i).take n).length := by simp
      simp only [← drop_drop, hlen]
      exact (prefix_iff_eq_append.mp ( take_prefix n _)).symm
  seek_ok := by
    intro r n hr _
    have hseek : bytesReader.seek r (n : ℕ) = (.ok (), { r with i := n }) := by
      simp [bytesReader]
    exact ⟨_, hseek, hr, by rw [← hr]⟩

end Delivers

section Takes

/-- What `x` returns it has taken from the front of the stream, where `P` relates it to the bytes
taken. -/
def Takes {α : Type} (stream : ρ → Bytes) (Inv : ρ → Prop) (P : α → Bytes → Prop) (x : SourceM ρ α) : Prop :=
  ∀ r a r', Inv r → x r = (.ok a, r') → Inv r' ∧ ∃ taken, P a taken ∧ stream r = taken ++ stream r'

/-- The bytes that `read` returns it has taken from the front of the stream. -/
def TakesRead (stream : ρ → Bytes) (Inv : ρ → Prop) : Prop :=
  ∀ r n out r', Inv r → 0 < n → read r n = (.ok out, r') → Inv r' ∧ out.length ≤ n ∧ stream r = out ++ stream r'

variable {read}

theorem Takes.bind {P : α → Bytes → Prop} {Q : β → Bytes → Prop} {x : SourceM ρ α} {f : α → SourceM ρ β}
    (hx : Takes stream Inv P x) (hf : ∀ a t, P a t → Takes stream Inv (fun b t' => Q b (t ++ t')) (f a)) :
    Takes stream Inv Q (x >>= f) := by
  intro r b r' hr hrun
  obtain ⟨a, r₁, hrun₁, hrun₂⟩ := bind_eq_ok.mp hrun
  obtain ⟨hr₁, t, ht, hs⟩ := hx r a r₁ hr hrun₁
  obtain ⟨hr', t', ht', hs'⟩ := hf a t ht r₁ b r' hr₁ hrun₂
  exact ⟨hr', t ++ t', ht', by rw [hs, hs', append_assoc]⟩

theorem takes_pure {P : α → Bytes → Prop} {a : α} (h : P a []) : Takes stream Inv P (pure a) := by
  intro r b r' hr hrun
  cases hrun
  exact ⟨hr, [], h, rfl⟩

variable (h : TakesRead read stream Inv)
include h

theorem takes_readFull (n : ℕ) : Takes stream Inv (fun out t => out = t ∧ t.length = n) (readFull read n) := by
  intro r out r' hr hrun
  obtain ⟨hr', hlen, hs⟩ := readFullLoop_ok read h hr hrun
  exact ⟨hr', out, ⟨rfl, by simpa using hlen⟩, hs⟩

theorem takes_readUint64 : Takes stream Inv (fun v t => v < 2 ^ 64 ∧ t = leBytes 8 v) (readUint64 read) := by
  refine (takes_readFull h 8).bind (fun out t ht => takes_pure ?_)
  obtain ⟨rfl, hlen⟩ := ht
  have hlt := leNat_lt out
  rw [hlen] at hlt
  exact ⟨hlt, by rw [← hlen, leBytes_leNat, append_nil]⟩

theorem takes_readUint24 : Takes stream Inv (fun v t => v < 2 ^ 24 ∧ t = leBytes 3 v) (readUint24 read) := by
  refine (takes_readFull h 3).bind (fun out t ht => takes_pure ?_)
  obtain ⟨rfl, hlen⟩ := ht
  have hlt := leNat_lt out
  rw [hlen] at hlt
  exact ⟨hlt, by rw [← hlen, leBytes_leNat, append_nil]⟩

theorem takes_readSlice :
    Takes stream Inv (fun a t => a.length < 2 ^ 24 ∧ t = leBytes 3 a.length ++ a) (readSlice read) := by
  refine (takes_readUint24 h).bind (fun l t ht => ?_)
  obtain ⟨hlt, rfl⟩ := ht
  intro r a r' hr hrun
  obtain ⟨hr', t, ⟨rfl, hlen⟩, hs⟩ := takes_readFull h l r a r' hr hrun
  exact ⟨hr', a, ⟨by omega, by rw [hlen]⟩, hs⟩

theorem takesRead_bufRead : TakesRead (bufRead read) (fun b => b.buf ++ stream b.src) (fun b => Inv b.src) := by
  intro b n out b' hb hn hread
  rw [bufRead] at hread
  split at hread
  · cases hread
    exact ⟨hb, length_take_le _ _, by rw [← append_assoc, take_append_drop]⟩
  · next hbuf =>
    rw [not_not] at hbuf
    split at hread
    · rcases hrun : read b.src n with ⟨res, src⟩
      rw [hrun] at hread
      cases hread
      obtain ⟨hsrc, hle, hs⟩ := h b.src n out src hb hn hrun
      refine ⟨hsrc, hle, ?_⟩
      simpa only [hbuf, nil_append] using hs
    · rcases hrun : read b.src 65536 with ⟨res, src⟩
      rw [hrun] at hread
      cases res with
      | error e => cases hread
      | ok got =>
        cases hread
        obtain ⟨hsrc, -, hs⟩ := h b.src 65536 got src hb (by decide) hrun
        refine ⟨hsrc, length_take_le _ _, ?_⟩
        simp only [hbuf, nil_append, hs]
        rw [← append_assoc, take_append_drop]

end Takes

section Calm

/-- In the states of `Inv`, which it keeps, `x` does not panic. -/
def Calm {α : Type} (Inv : ρ → Prop) (x : SourceM ρ α) : Prop :=
  ∀ r, Inv r → (∀ msg, (x r).1 ≠ .error (.panic msg)) ∧ Inv (x r).2

/-- In the states of `Inv`, which it keeps, `read` returns some bytes or an error. -/
def CalmRead (Inv : ρ → Prop) : Prop :=
  ∀ r n, Inv r → 0 < n →
    (∀ msg, (read r n).1 ≠ .error (.panic msg)) ∧ (∀ out, (read r n).1 = .ok out → out ≠ []) ∧ Inv (read r n).2

variable {read}

theorem calm_pure (a : α) : Calm Inv (pure a : SourceM ρ α) := fun _ hr => ⟨nofun, hr⟩

theorem Calm.bind {x : SourceM ρ α} {f : α → SourceM ρ β} (hx : Calm Inv x) (hf : ∀ a, Calm Inv (f a)) :
    Calm Inv (x >>= f) := by
  intro r hr
  obtain ⟨hreturns, hr'⟩ := hx r hr
  rcases hrun : x r with ⟨res, r'⟩
  rw [hrun] at hreturns hr'
  cases res with
  | ok a =>
    rw [bind_of_ok hrun]
    exact hf a r' hr'
  | error e =>
    rw [bind_of_error hrun]
    exact ⟨fun msg he => hreturns msg (by cases he; rfl), hr'⟩

section

variable (h : CalmRead read Inv)
include h

theorem calm_readFullLoop {rounds n : ℕ} (acc : Bytes) (hn : n ≤ rounds) :
    Calm Inv (fun r => readFullLoop read rounds n acc r : SourceM ρ Bytes) := by
  intro r hr
  induction rounds generalizing n acc r with
  | zero =>
    obtain rfl : n = 0 := by omega
    exact ⟨nofun, hr⟩
  | succ rounds ih =>
    rcases Nat.eq_zero_or_pos n with rfl | hpos
    · simp only [readFullLoop, if_true]
      exact ⟨nofun, hr⟩
    · obtain ⟨hreturns, hsome, hr'⟩ := h r n hr hpos
      rcases hread : read r n with ⟨res, r'⟩
      rw [hread] at hreturns hsome hr'
      simp only [readFullLoop, if_neg hpos.ne', hread]
      cases res with
      | ok out =>
        have hlen := length_pos_of_ne_nil (hsome out rfl)
        exact ih (acc ++ out) (by omega) r' hr'
      | error e =>
        cases e with
        | eof =>
          refine ⟨fun msg he => ?_, hr'⟩
          dsimp only at he
          split at he <;> cases he
        | panic msg => exact absurd rfl (hreturns msg)
        | _ => exact ⟨nofun, hr'⟩

theorem calm_readFull (n : ℕ) : Calm Inv (readFull read n) :=
  calm_readFullLoop h [] le_rfl

theorem calm_readUint64 : Calm Inv (readUint64 read) :=
  (calm_readFull h 8).bind (fun _ => calm_pure _)

theorem calm_readUint24 : Calm Inv (readUint24 read) :=
  (calm_readFull h 3).bind (fun _ => calm_pure _)

theorem calm_readSlice : Calm Inv (readSlice read) :=
  (calm_readUint24 h).bind (fun l => calm_readFull h l)

theorem calmRead_bufRead : CalmRead (bufRead read) (fun b => Inv b.src) := by
  intro b n hb hn
  rw [bufRead]
  split
  · next hbuf =>
    refine ⟨nofun, fun out hout => ?_, hb⟩
    cases hout
    simp only [ne_eq, take_eq_nil_iff, not_or]
    exact ⟨hn.ne', hbuf⟩
  · split
    · exact h b.src n hb hn
    · obtain ⟨hreturns, hsome, hsrc⟩ := h b.src 65536 hb (by decide)
      rcases hread : read b.src 65536 with ⟨res, src⟩
      rw [hread] at hreturns hsome hsrc
      cases res with
      | ok got =>
        refine ⟨nofun, fun out hout => ?_, hsrc⟩
        cases hout
        simp only [ne_eq, take_eq_nil_iff, not_or]
        exact ⟨hn.ne', hsome got rfl⟩
      | error e => exact ⟨fun msg he => hreturns msg (by cases he; rfl), nofun, hsrc⟩

end

theorem readFull_of_panic {n : ℕ} {r r' : ρ} {msg : String} (hn : 0 < n) (h : read r n = (.error (.panic msg), r')) :
    readFull read n r = (.error (.panic msg), r') := by
  obtain ⟨n, rfl⟩ : ∃ m, n = m + 1 := ⟨n - 1, by omega⟩
  rw [readFull, readFullLoop, if_neg (by omega), h]

end Calm

section Failures

/-- `Seek` and then `io.ReadFull` of `n` bytes. -/
def Handle.fetch (f : Handle ρ) (off : ℤ) (n : ℕ) : SourceM ρ Bytes := fun r =>
  match f.seek r off with
  | (.error e, r') => (.error e, r')
  | (.ok (), r') => readFull f.read n r'

/-- The bytes `data` behind a handle of which every call may fail. A call that does not fail does what
it does to a plain file, where `stream` is what is left behind the position. -/
structure Handle.Backed (f : Handle ρ) (data : Bytes) (stream : ρ → Bytes) : Prop where
  read_ok : ∀ {r r' n out}, 0 < n → f.read r n = (.ok out, r') →
    out ≠ [] ∧ out.length ≤ n ∧ stream r = out ++ stream r'
  seek_ok : ∀ {r r'} {n : ℕ}, f.seek r n = (.ok (), r') → stream r' = data.drop n
  read_returns : ∀ r n msg, (f.read r n).1 ≠ .error (.panic msg)
  seek_returns : ∀ r off msg, (f.seek r off).1 ≠ .error (.panic msg)

/-- What `io.ReadFull` reports for an error after the first bytes. -/
def afterBytes : GoError → GoError
  | .eof => .unexpectedEOF
  | e => e

/-- One of the `Read` calls that fill a buffer of `n` bytes fails, and `io.ReadFull` reports `e`. -/
inductive Handle.FillFails (f : Handle ρ) : ℕ → GoError → ρ → Prop
  | now {n : ℕ} {e : GoError} {r r' : ρ} (hn : 0 < n) (h : f.read r n = (.error e, r')) : f.FillFails n e r
  | later {n : ℕ} {e : GoError} {out : Bytes} {r r' : ρ} (hn : 0 < n) (h : f.read r n = (.ok out, r'))
      (hrest : f.FillFails (n - out.length) e r') : f.FillFails n (afterBytes e) r

/-- A `Seek` to `off` fails, or one of the `Read` calls behind it. -/
inductive Handle.FetchFails (f : Handle ρ) (off : ℤ) (n : ℕ) (e : GoError) (r : ρ) : Prop
  | seek {r' : ρ} (h : f.seek r off = (.error e, r'))
  | fill {r' : ρ} (h : f.seek r off = (.ok (), r')) (hfill : f.FillFails n e r')

variable {f : Handle ρ} {data : Bytes} {n : ℕ} {e : GoError}

theorem afterBytes_afterBytes (e : GoError) : afterBytes (afterBytes e) = afterBytes e := by
  cases e <;> rfl

theorem afterBytes_ne_panic (h : ∀ msg, e ≠ .panic msg) (msg : String) : afterBytes e ≠ .panic msg := by
  cases e with
  | eof => exact nofun
  | _ => exact h msg

theorem Handle.FillFails.unique {e' : GoError} (h : f.FillFails n e r) (h' : f.FillFails n e' r) : e = e' := by
  induction h generalizing e' with
  | now hn hread =>
    cases h' with
    | now _ hread' => exact Except.error.inj (congrArg Prod.fst (hread.symm.trans hread'))
    | later _ hread' => cases hread.symm.trans hread'
  | later hn hread _ ih =>
    cases h' with
    | now _ hread' => cases hread.symm.trans hread'
    | later _ hread' hrest' =>
      cases hread.symm.trans hread'
      rw [ih hrest']

theorem Handle.FetchFails.unique {off : ℤ} {e' : GoError} (h : f.FetchFails off n e r)
    (h' : f.FetchFails off n e' r) : e = e' := by
  cases h with
  | seek hseek =>
    cases h' with
    | seek hseek' => exact Except.error.inj (congrArg Prod.fst (hseek.symm.trans hseek'))
    | fill hseek' => cases hseek.symm.trans hseek'
  | fill hseek hfill =>
    cases h' with
    | seek hseek' => cases hseek.symm.trans hseek'
    | fill hseek' hfill' =>
      cases hseek.symm.trans hseek'
      exact hfill.unique hfill'

namespace Handle.Backed

variable (h : f.Backed data stream)
include h

theorem ne_panic_of_fillFails (hfail : f.FillFails n e r) (msg : String) : e ≠ .panic msg := by
  induction hfail generalizing msg with
  | @now n e r r' _ hread =>
    rintro rfl
    exact h.read_returns r n msg (by rw [hread])
  | later _ _ _ ih => exact afterBytes_ne_panic ih msg

theorem ne_panic_of_fetchFails {off : ℤ} (hfail : f.FetchFails off n e r) (msg : String) : e ≠ .panic msg := by
  cases hfail with
  | seek hseek =>
    rintro rfl
    exact h.seek_returns r off msg (by rw [hseek])
  | fill _ hfill => exact h.ne_panic_of_fillFails hfill msg

theorem readFullLoop_cases {rounds : ℕ} (acc : Bytes) (hn : n ≤ rounds) :
    (∃ r', readFullLoop f.read rounds n acc r = (.ok (acc ++ (stream r).take n), r') ∧
      n ≤ (stream r).length ∧ ∀ e, ¬ f.FillFails n e r) ∨
    ∃ e r', f.FillFails n e r ∧
      readFullLoop f.read rounds n acc r = (.error (if acc = [] then e else afterBytes e), r') := by
  induction rounds generalizing n acc r with
  | zero =>
    obtain rfl : n = 0 := by omega
    refine .inl ⟨r, by simp [readFullLoop], Nat.zero_le _, fun e hfail => ?_⟩
    cases hfail with
    | now hpos => omega
    | later hpos => omega
  | succ rounds ih =>
    rcases Nat.eq_zero_or_pos n with rfl | hpos
    · refine .inl ⟨r, by simp [readFullLoop], Nat.zero_le _, fun e hfail => ?_⟩
      cases hfail with
      | now hpos => omega
      | later hpos => omega
    · rcases hread : f.read r n with ⟨res, r₁⟩
      rw [readFullLoop, if_neg hpos.ne', hread]
      cases res with
      | error e =>
        refine .inr ⟨e, r₁, .now hpos hread, ?_⟩
        cases e <;> simp [afterBytes]
      | ok out =>
        obtain ⟨hout, hle, hs⟩ := h.read_ok hpos hread
        have hlen := length_pos_of_ne_nil hout
        have hacc : acc ++ out ≠ [] := by simp [hout]
        rcases @ih r₁ (n - out.length) (acc ++ out) (by omega) with ⟨r', hrun, hle', hno⟩ | ⟨e, r', hfail, hrun⟩
        · refine .inl ⟨r', ?_, ?_, fun e hfail => ?_⟩
          · simp only [hrun, hs, take_append, take_of_length_le hle, append_assoc]
          · rw [hs, length_append]
            omega
          · cases hfail with
            | now _ hread' => cases hread.symm.trans hread'
            | later _ hread' hrest =>
              cases hread.symm.trans hread'
              exact hno _ hrest
        · refine .inr ⟨afterBytes e, r', .later hpos hread hfail, ?_⟩
          simp only [hrun, if_neg hacc, afterBytes_afterBytes, ite_self]

theorem fetch_cases (off n : ℕ) (r : ρ) :
    (∃ r', f.fetch off n r = (.ok ((data.drop off).take n), r') ∧ n ≤ (data.drop off).length ∧
      ∀ e, ¬ f.FetchFails off n e r) ∨
    ∃ e r', f.FetchFails off n e r ∧ f.fetch off n r = (.error e, r') := by
  rcases hseek : f.seek r off with ⟨res, r₁⟩
  rw [Handle.fetch, hseek]
  cases res with
  | error e => exact .inr ⟨e, r₁, .seek hseek, rfl⟩
  | ok u =>
    rcases h.readFullLoop_cases (r := r₁) [] (Nat.le_refl n) with ⟨r', hrun, hle, hno⟩ | ⟨e, r', hfail, hrun⟩
    · rw [h.seek_ok hseek] at hrun hle
      refine .inl ⟨r', hrun, hle, fun e hfail => ?_⟩
      cases hfail with
      | seek hseek' => cases hseek.symm.trans hseek'
      | fill hseek' hfill =>
        cases hseek.symm.trans hseek'
        exact hno e hfill
    · exact .inr ⟨e, r', .fill hseek hfail, hrun⟩

end Handle.Backed

end Failures

theorem fileRead_delivers : Delivers fileRead id (fun _ => True) := by
  intro r n _ hn hne
  have hne : r ≠ [] := hne
  refine ⟨r.take n, r.drop n, if_neg hne, trivial, ?_, length_take_le _ _, (take_append_drop n r).symm⟩
  simp only [ne_eq, take_eq_nil_iff, not_or]
  exact ⟨hn.ne', hne⟩

end Bpy.ByteSources
