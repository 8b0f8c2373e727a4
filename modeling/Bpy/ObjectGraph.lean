import Bpy.Directories
import Bpy.References
import Mathlib.Logic.Relation

/-!
# The graph of stored objects

Refs, directories and hash trees as a graph over the chunks of a store. `Link` follows
the formats: a ref points to its root directory and to the ref before it, a directory to
its folders and files, and the chunk of an inner node to its children. What a drive needs
to keep is what can be reached from its ref.
-/
namespace Bpy.ObjectGraph
open ByteWords InteractionPrograms ContentStore HashTreeWriter HashTreeContent HashTreeRoundTrip List
open HashTreeStreams References Directories Relation

/-- The hashes in the entries `offset:hash` of a node. -/
def entryHashes (body : Bytes) : List Hash :=
  (range (body.length / 40)).map (fun i => Hash.copy ((body.drop (40 * i + 8)).take 32))

/-- A leaf has no children. -/
def children : Bytes → List Hash
  | [] => []
  | t :: body => if t = 0 then [] else entryHashes body

theorem entryHashes_cons (off : ℕ) (hash : Hash) (body : Bytes) :
    entryHashes (leBytes 8 off ++ hash.bytes ++ body) = hash :: entryHashes body := by
  have hlen : (leBytes 8 off ++ hash.bytes).length = 40 := by simp [hash.length_bytes]
  have hdiv : (leBytes 8 off ++ hash.bytes ++ body).length / 40 = body.length / 40 + 1 := by
    rw [length_append, hlen]
    omega
  have hfirst : ((leBytes 8 off ++ hash.bytes ++ body).drop 8).take 32 = hash.bytes := by
    rw [append_assoc, drop_left' (length_leBytes 8 off), take_left' hash.length_bytes]
  have hrest : ∀ i, (leBytes 8 off ++ hash.bytes ++ body).drop (40 * (i + 1) + 8) = body.drop (40 * i + 8) := by
    intro i
    rw [show 40 * (i + 1) + 8 = 40 + (40 * i + 8) by ring, ← drop_drop, drop_left' hlen]
  rw [entryHashes, hdiv, range_succ_eq_map, map_cons, List.map_map]
  simp only [Nat.mul_zero, Nat.zero_add, hfirst, Hash.copy_bytes, cons.injEq, true_and]
  apply map_congr_left
  intro i _
  simp only [Function.comp_apply, Nat.succ_eq_add_one, hrest]

theorem entryHashes_encodeEntries (off : ℕ) (es : Children) : entryHashes (encodeEntries off es) = es.map Prod.fst := by
  induction es generalizing off with
  | nil => simp [encodeEntries, entryHashes]
  | cons e es ih => rw [encodeEntries, entryHashes_cons, ih, map_cons]

section Graph

variable (stored : Hash → Bytes → Prop)

inductive Obj where
  | ref (h : Hash)
  | dir (h : Hash)
  | tree (h : Hash)

/-- What an entry of a directory stands for. -/
def entObj (e : DirEnt) : Obj := if e.isDir then .dir e.htree.data else .tree e.htree.data

def RefAt (h : Hash) (r : Ref) : Prop := ∃ k, Tree stored ⟨k, h⟩ r.encode

/-- The directory at `h` has the entries `ents`, besides the one for `.`. -/
def DirAt (h : Hash) (ents : List DirEnt) : Prop :=
  ∃ k dot, Tree stored ⟨k, h⟩ (encodeEnts (dot :: ents)) ∧ ∀ e ∈ dot :: ents, e.Encodable

inductive Link : Obj → Obj → Prop
  | refTree (h : Hash) : Link (.ref h) (.tree h)
  | refRoot {h : Hash} {r : Ref} (hr : RefAt stored h r) : Link (.ref h) (.dir r.root)
  | refPrev {h : Hash} {r : Ref} (hr : RefAt stored h r) (hp : r.hasPrev = true) :
      Link (.ref h) (.ref r.prev)
  | dirTree (h : Hash) : Link (.dir h) (.tree h)
  | dirEnt {h : Hash} {ents : List DirEnt} {e : DirEnt} (hd : DirAt stored h ents) (he : e ∈ ents) :
      Link (.dir h) (entObj e)
  | child {h h' : Hash} {c : Bytes} (hc : stored h c) (hh : h' ∈ children c) :
      Link (.tree h) (.tree h')

/-- The chunk `x` belongs to what can be reached from `o`. -/
def Reach (o : Obj) (x : Hash) : Prop := ReflTransGen (Link stored) o (.tree x)

end Graph

/-- Different chunks have different hashes. -/
def Functional (stored : Hash → Bytes → Prop) : Prop := ∀ h c c', stored h c → stored h c' → c = c'

variable {sha256 : Bytes → Hash} {s : List Bytes} {refs : Set Hash}

theorem functional_stored
    (hinj : Set.InjOn sha256 {c | c ∈ s}) : Functional (Stored sha256 s) := by
  intro h c c' hc hc'
  exact hinj hc.1 hc'.1 (hc.2.trans hc'.2.symm)

section Unique

variable {stored : Hash → Bytes → Prop}

theorem tag_inj {k k' : ℕ} (hk : k < nlevels) (hk' : k' < nlevels) (h : tag k = tag k') : k = k' := by
  have hnat := congrArg UInt8.toNat h
  simp only [UInt8.toNat_ofNat', nlevels] at hnat hk hk'
  omega

theorem tag_ne_zero {k : ℕ} (hk : k + 1 < nlevels) : tag (k + 1) ≠ 0 := by
  intro h
  have := tag_inj hk (by decide) (h.trans (show (0 : UInt8) = tag 0 from rfl))
  omega

theorem children_node {k : ℕ} (hk : k + 1 < nlevels) (off : ℕ) (es : Children) :
    children (tag (k + 1) :: encodeEntries off es) = es.map Prod.fst := by
  rw [children, if_neg (tag_ne_zero hk), entryHashes_encodeEntries]

theorem chain_unique {P P' : ℕ → Hash → Bytes → Prop} (hP : ∀ off h d d', P off h d → P' off h d' → d = d')
    {es es' : Children} {off : ℕ} (hc : Chain P off es) (hc' : Chain P' off es')
    (hes : es.map Prod.fst = es'.map Prod.fst) : es = es' := by
  induction es generalizing es' off with
  | nil =>
    cases es' with
    | nil => rfl
    | cons e' es' => simp at hes
  | cons e es ih =>
    cases es' with
    | nil => simp at hes
    | cons e' es' =>
      simp only [map_cons, cons.injEq] at hes
      rcases e with ⟨h, d⟩
      rcases e' with ⟨h', d'⟩
      obtain ⟨hh, hrest⟩ := hes
      simp only at hh
      subst hh
      have hd : d = d' := hP off h d d' hc.1 hc'.1
      subst hd
      rw [ih hc.2 hc'.2 hrest]

variable (hf : Functional stored)
include hf

theorem holds_unique {k k' off : ℕ} {h : Hash} {d d' : Bytes}
    (hk : k < nlevels) (hk' : k' < nlevels) (hh : Holds stored k off h d)
    (hh' : Holds stored k' off h d') : k = k' ∧ d = d' := by
  induction k generalizing k' off h d d' with
  | zero =>
    cases k' with
    | zero =>
      have hc := hf h _ _ hh.1 hh'.1
      exact ⟨rfl, (cons.inj hc).2⟩
    | succ k' =>
      obtain ⟨es, -, -, -, hs, -⟩ := hh'
      have hc := hf h _ _ hh.1 hs
      exact absurd (cons.inj hc).1.symm (tag_ne_zero hk')
  | succ k ih =>
    obtain ⟨es, -, -, hd, hs, hchain⟩ := hh
    cases k' with
    | zero =>
      have hc := hf h _ _ hs hh'.1
      exact absurd (cons.inj hc).1 (tag_ne_zero hk)
    | succ k' =>
      obtain ⟨es', -, -, hd', hs', hchain'⟩ := hh'
      have hc := cons.inj (hf h _ _ hs hs')
      have hkk : k = k' := Nat.succ.inj (tag_inj hk hk' hc.1)
      subst hkk
      have hes : es.map Prod.fst = es'.map Prod.fst := by
        rw [← entryHashes_encodeEntries off es, hc.2, entryHashes_encodeEntries]
      have hsame : es = es' := by
        refine chain_unique (fun off h d d' hP hP' => ?_) hchain hchain' hes
        exact (ih (Nat.lt_of_succ_lt hk) (Nat.lt_of_succ_lt hk) hP.1 hP'.1).2
      exact ⟨rfl, by rw [← hd, ← hd', hsame]⟩

theorem tree_unique {t t' : HTree} {d d' : Bytes} (ht : Tree stored t d)
    (ht' : Tree stored t' d') (hdata : t.data = t'.data) : t = t' ∧ d = d' := by
  have hh' := ht'.holds
  rw [← hdata] at hh'
  obtain ⟨hk, hd⟩ := holds_unique hf (Nat.lt_of_succ_lt ht.depth_lt) (Nat.lt_of_succ_lt ht'.depth_lt) ht.holds hh'
  rcases t with ⟨k, h⟩
  rcases t' with ⟨k', h'⟩
  exact ⟨by rw [HTree.mk.injEq]; exact ⟨hk, hdata⟩, hd⟩

theorem dirAt_unique {h : Hash} {ents ents' : List DirEnt}
    (hd : DirAt stored h ents) (hd' : DirAt stored h ents') : ents = ents' := by
  obtain ⟨k, dot, ht, he⟩ := hd
  obtain ⟨k', dot', ht', he'⟩ := hd'
  obtain ⟨-, henc⟩ := tree_unique hf ht ht' rfl
  have hdec := decodeEnts_encodeEnts he _ (Nat.lt_succ_of_le (length_le_encodeEnts _))
  have hdec' := decodeEnts_encodeEnts he' _ (Nat.lt_succ_of_le (length_le_encodeEnts _))
  rw [henc, hdec'] at hdec
  simp only [Except.ok.injEq, cons.injEq] at hdec
  exact hdec.2.symm

theorem refAt_unique {h : Hash} {r r' : Ref} (hr : RefAt stored h r)
    (hr' : RefAt stored h r') : r.norm = r'.norm := by
  obtain ⟨k, ht⟩ := hr
  obtain ⟨k', ht'⟩ := hr'
  obtain ⟨-, henc⟩ := tree_unique hf ht ht' rfl
  have hdec := Ref.decode_encode r
  rw [henc, Ref.decode_encode r'] at hdec
  exact (Except.ok.inj hdec).symm

end Unique

section Reach

variable {stored stored' : Hash → Bytes → Prop} {h x : Hash}

theorem reach_self (h : Hash) : Reach stored (.tree h) h := ReflTransGen.refl

theorem reach_tree (hf : Functional stored) {c : Bytes} (hc : stored h c) :
    Reach stored (.tree h) x ↔ x = h ∨ ∃ h' ∈ children c, Reach stored (.tree h') x := by
  constructor
  · intro hreach
    rcases ReflTransGen.cases_head hreach with heq | ⟨o, hlink, hrest⟩
    · left
      exact (Obj.tree.inj heq).symm
    · right
      cases hlink with
      | child hc' hh => exact ⟨_, hf h _ _ hc hc' ▸ hh, hrest⟩
  · rintro (rfl | ⟨h', hh, hrest⟩)
    · exact reach_self x
    · exact ReflTransGen.head (Link.child hc hh) hrest

theorem reach_dir (hf : Functional stored) {ents : List DirEnt} (hd : DirAt stored h ents) :
    Reach stored (.dir h) x ↔ Reach stored (.tree h) x ∨ ∃ e ∈ ents, Reach stored (entObj e) x := by
  constructor
  · intro hreach
    rcases ReflTransGen.cases_head hreach with heq | ⟨o, hlink, hrest⟩
    · simp at heq
    · cases hlink with
      | dirTree => exact Or.inl hrest
      | dirEnt hd' he => exact Or.inr ⟨_, dirAt_unique hf hd hd' ▸ he, hrest⟩
  · rintro (htree | ⟨e, he, hrest⟩)
    · exact ReflTransGen.head (Link.dirTree h) htree
    · exact ReflTransGen.head (Link.dirEnt hd he) hrest

theorem reach_ref (hf : Functional stored) {r : Ref} (hr : RefAt stored h r) :
    Reach stored (.ref h) x ↔ Reach stored (.tree h) x ∨ Reach stored (.dir r.root) x ∨
      (r.hasPrev = true ∧ Reach stored (.ref r.prev) x) := by
  constructor
  · intro hreach
    rcases ReflTransGen.cases_head hreach with heq | ⟨o, hlink, hrest⟩
    · simp at heq
    · cases hlink with
      | refTree => exact Or.inl hrest
      | refRoot hr' =>
        have hroot := congrArg Ref.root (refAt_unique hf hr' hr)
        exact Or.inr (Or.inl (hroot ▸ hrest))
      | refPrev hr' hp =>
        have hnorm := refAt_unique hf hr' hr
        have hp' : r.hasPrev = true := (congrArg Ref.hasPrev hnorm).symm.trans hp
        have hprev := congrArg Ref.prev hnorm
        simp only [Ref.norm, hp, hp', if_true] at hprev
        exact Or.inr (Or.inr ⟨hp', hprev ▸ hrest⟩)
  · rintro (htree | hroot | ⟨hp, hprev⟩)
    · exact ReflTransGen.head (Link.refTree h) htree
    · exact ReflTransGen.head (Link.refRoot hr) hroot
    · exact ReflTransGen.head (Link.refPrev hr hp) hprev

end Reach

section Sound

variable {stored stored' : Hash → Bytes → Prop}

/-- The directory and all folders and files below it are stored. -/
inductive SoundDir (stored : Hash → Bytes → Prop) : HTree → Prop
  | intro {t : HTree} {dot : DirEnt} {ents : List DirEnt} (ht : Tree stored t (encodeEnts (dot :: ents)))
      (henc : ∀ e ∈ dot :: ents, e.Encodable) (hfiles : ∀ e ∈ ents, ∃ d, Tree stored e.htree d)
      (hdirs : ∀ e ∈ ents, e.isDir = true → SoundDir stored e.htree) : SoundDir stored t

/-- The ref, its directory and all refs before it are stored. -/
inductive SoundRef (stored : Hash → Bytes → Prop) : Hash → Prop
  | intro {k : ℕ} {h : Hash} {r : Ref} {t : HTree} (hr : Tree stored ⟨k, h⟩ r.encode)
      (ht : t.data = r.root) (hroot : SoundDir stored t)
      (hprev : r.hasPrev = true → SoundRef stored r.prev) : SoundRef stored h

theorem SoundDir.mono (hst : ∀ h c, stored h c → stored' h c) {t : HTree} (h : SoundDir stored t) :
    SoundDir stored' t := by
  induction h with
  | intro ht henc hfiles _ ih =>
    refine .intro (ht.mono hst) henc (fun e he => ?_) ih
    obtain ⟨d, hd⟩ := hfiles e he
    exact ⟨d, hd.mono hst⟩

theorem SoundRef.mono (hst : ∀ h c, stored h c → stored' h c) {h : Hash} (hr : SoundRef stored h) :
    SoundRef stored' h := by
  induction hr with
  | intro hr ht hroot _ ih => exact .intro (hr.mono hst) ht (hroot.mono hst) ih

theorem SoundDir.tree {t : HTree} (h : SoundDir stored t) : ∃ d, Tree stored t d := by
  cases h with
  | intro ht => exact ⟨_, ht⟩

end Sound

section ReachStored

variable {stored : Hash → Bytes → Prop} (hf : Functional stored) {x : Hash}
include hf

theorem stored_of_reach_tree {k off : ℕ} {h : Hash} {d : Bytes} (hk : k < nlevels)
    (hh : Holds stored k off h d) (hx : Reach stored (.tree h) x) : ∃ c, stored x c := by
  induction k generalizing off h d with
  | zero =>
    rcases (reach_tree hf hh.1).mp hx with rfl | ⟨h', hh', -⟩
    · exact ⟨_, hh.1⟩
    · simp [children] at hh'
  | succ k ih =>
    obtain ⟨es, -, -, -, hs, hchain⟩ := hh
    rcases (reach_tree hf hs).mp hx with rfl | ⟨h', hh', hrest⟩
    · exact ⟨_, hs⟩
    · rw [children_node hk] at hh'
      obtain ⟨off', d', hP⟩ := hchain.of_mem hh'
      exact ih (Nat.lt_of_succ_lt hk) hP.1 hrest

theorem stored_of_reach_dir {t : HTree} (ht : SoundDir stored t) (hx : Reach stored (.dir t.data) x) :
    ∃ c, stored x c := by
  induction ht with
  | @intro t dot ents ht henc hfiles _ ih =>
    rcases (reach_dir hf ⟨t.depth, dot, ht, henc⟩).mp hx with hx | ⟨e, he, hx⟩
    · exact stored_of_reach_tree hf (Nat.lt_of_succ_lt ht.depth_lt) ht.holds hx
    · cases hdir : e.isDir with
      | true =>
        rw [entObj, if_pos hdir] at hx
        exact ih e he hdir hx
      | false =>
        rw [entObj, if_neg (by simp [hdir])] at hx
        obtain ⟨d, hd⟩ := hfiles e he
        exact stored_of_reach_tree hf (Nat.lt_of_succ_lt hd.depth_lt) hd.holds hx

end ReachStored

/-- The stores that the three writers build, with the trees of files and directories and
the hashes of refs that they returned. Entries of directories and refs point to what was
written before. The store may hold other chunks to begin with. -/
inductive Built (sha256 : Bytes → Hash) : List Bytes → Set HTree → Set HTree → Set Hash → Prop
  | start (s : List Bytes) : Built sha256 s ∅ ∅ ∅
  | file {s s' : List Bytes} {files dirs : Set HTree} {refs : Set Hash} {bufs : List Bytes}
      {t : HTree} {w : Writer} (hb : Built sha256 s files dirs refs)
      (hlen : bufs.flatten.length < 2 ^ 64)
      (hw : Method.exec (memStore sha256) (writeTree bufs) newWriter s = (.ok t, w, s')) :
      Built sha256 s' (insert t files) dirs refs
  | dir {s s' : List Bytes} {files dirs : Set HTree} {refs : Set Hash} {indir : List DirEnt}
      {mode : UInt32} {ent : DirEnt} (hb : Built sha256 s files dirs refs)
      (hents : ∀ e ∈ indir, e.htree ∈ if e.isDir then dirs else files)
      (hw : Method.exec (memStore sha256) (writeDir indir mode) () s = (.ok ent, (), s')) :
      Built sha256 s' files (insert ent.htree dirs) refs
  | ref {s s' : List Bytes} {files dirs : Set HTree} {refs : Set Hash} {r : Ref} {t : HTree} {h : Hash}
      (hb : Built sha256 s files dirs refs) (ht : t ∈ dirs) (hroot : t.data = r.root)
      (hprev : r.hasPrev = true → r.prev ∈ refs)
      (hw : Method.exec (memStore sha256) (putRef r) () s = (.ok h, (), s')) :
      Built sha256 s' files dirs (insert h refs)

/-- Everything that the writers returned is sound. -/
structure AllSound (stored : Hash → Bytes → Prop) (files dirs : Set HTree) (refs : Set Hash) : Prop where
  files : ∀ t ∈ files, ∃ d, Tree stored t d
  dirs : ∀ t ∈ dirs, SoundDir stored t
  refs : ∀ h ∈ refs, SoundRef stored h

theorem AllSound.mono {stored stored' : Hash → Bytes → Prop} {files dirs : Set HTree}
    (hst : ∀ h c, stored h c → stored' h c) (h : AllSound stored files dirs refs) :
    AllSound stored' files dirs refs where
  files := by
    intro t ht
    obtain ⟨d, hd⟩ := h.files t ht
    exact ⟨d, hd.mono hst⟩
  dirs := fun t ht => (h.dirs t ht).mono hst
  refs := fun x hx => (h.refs x hx).mono hst

theorem Built.sound {files dirs : Set HTree}
    (hb : Built sha256 s files dirs refs) : AllSound (Stored sha256 s) files dirs refs := by
  induction hb with
  | start s => exact ⟨by simp, by simp, by simp⟩
  | file hb hlen hw ih =>
    obtain ⟨ws, rfl, htree⟩ := writeTree_ok hlen hw
    have hmono := ih.mono (fun _ _ => Stored.append ws)
    refine ⟨?_, hmono.dirs, hmono.refs⟩
    rintro x (rfl | hx)
    · exact ⟨_, htree⟩
    · exact hmono.files x hx
  | @dir s s' files dirs refs indir mode ent hb hents hw ih =>
    obtain ⟨⟨ws, rfl⟩, -, -, htree, hnames⟩ := writeDir_ok hw
    have hmono := ih.mono (fun _ _ => Stored.append ws)
    refine ⟨hmono.files, ?_, hmono.refs⟩
    have hfiles : ∀ e ∈ indir, ∃ d, Tree (Stored sha256 (ws ++ s)) e.htree d := by
      intro e he
      have hmem := hents e he
      split at hmem
      · exact (hmono.dirs _ hmem).tree
      · exact hmono.files _ hmem
    rintro x (rfl | hx)
    · refine .intro htree ?_ (fun e he => hfiles e (mem_sortEnts.mp he)) ?_
      · intro e he
        rcases mem_cons.mp he with rfl | he
        · exact dotEnt_encodable _
        · have he := mem_sortEnts.mp he
          obtain ⟨d, hd⟩ := hfiles e he
          have hdepth := hd.depth_lt
          refine ⟨hnames e he, ?_⟩
          simp only [nlevels] at hdepth
          omega
      · intro e he hdir
        have hmem := hents e (mem_sortEnts.mp he)
        rw [if_pos hdir] at hmem
        exact hmono.dirs _ hmem
    · exact hmono.dirs x hx
  | ref hb ht hroot hprev hw ih =>
    obtain ⟨ws, k, rfl, htree⟩ := putRef_ok hw
    have hmono := ih.mono (fun _ _ => Stored.append ws)
    refine ⟨hmono.files, hmono.dirs, ?_⟩
    rintro x (rfl | hx)
    · exact .intro htree hroot (hmono.dirs _ ht) (fun hp => hmono.refs _ (hprev hp))
    · exact hmono.refs x hx

end Bpy.ObjectGraph
