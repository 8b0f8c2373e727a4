import Bpy.RewrittenFolders
import Bpy.DuplicateNames
import Bpy.DriveNames

/-!
# Trees that are written again

The hash tree of a directory is determined by its mode and its entries. `insert` and
`remove` write the directories on a path again, and they succeed when the path is there
and the names of every directory on it are proper, distinct and not too long.
-/
namespace Bpy.TreeRewrites
open ByteWords InteractionPrograms ContentStore HashTreeWriter Directories
open FileTrees PathElements ObjectGraph DirTrees TreeEdits TreeInsert TreeMove
open DuplicateNames DriveNames HostBackup RewrittenFolders
open List Method

section Listings

variable {stored : Hash → Bytes → Prop} {ents : List DirEnt} {name : Bytes} {ent : DirEnt}

variable {a f : DirEnt} {d : Listing}

theorem setTree_cons_self (t : HTree) (ha : a.entName = name) :
    setTree name t (a :: ents) = { a with htree := t } :: ents := if_pos ha

theorem setTree_cons_of_ne (t : HTree) (ha : a.entName ≠ name) :
    setTree name t (a :: ents) = a :: setTree name t ents := if_neg ha

theorem setTree_self {e : DirEnt} (h : findEnt ents name = some e) : setTree name e.htree ents = ents := by
  induction ents with
  | nil => rfl
  | cons a ents ih =>
    by_cases ha : a.entName = name
    · rw [findEnt_cons_self ha, Option.some.injEq] at h
      rw [setTree_cons_self _ ha, h]
    · rw [findEnt_cons_of_ne ha] at h
      rw [setTree_cons_of_ne _ ha, ih h]

theorem setTree_again (t t' : HTree) (ents : List DirEnt) :
    setTree name t' (setTree name t ents) = setTree name t' ents := by
  induction ents with
  | nil => rfl
  | cons a ents ih =>
    by_cases ha : a.entName = name
    · rw [setTree_cons_self t ha, setTree_cons_self t' ha]
      exact setTree_cons_self t' ha
    · rw [setTree_cons_of_ne t ha, setTree_cons_of_ne t' ha, setTree_cons_of_ne t' ha, ih]

theorem setTree_comm {m : Bytes} (hm : m ≠ name) (t t' : HTree) (ents : List DirEnt) :
    setTree name t' (setTree m t ents) = setTree m t (setTree name t' ents) := by
  induction ents with
  | nil => rfl
  | cons a ents ih =>
    by_cases ha : a.entName = name
    · have ham : a.entName ≠ m := fun h => hm (h.symm.trans ha)
      rw [setTree_cons_of_ne t ham, setTree_cons_self t' ha, setTree_cons_self t' ha]
      exact (if_neg ham).symm
    · rw [setTree_cons_of_ne t' ha]
      by_cases ham : a.entName = m
      · rw [setTree_cons_self t ham, setTree_cons_self t ham]
        exact setTree_cons_of_ne t' ha
      · rw [setTree_cons_of_ne t ham, setTree_cons_of_ne t ham, setTree_cons_of_ne t' ha, ih]

theorem links_lawful (hfun : Functional stored) : Lawful (links hfun) where
  relink_self d n e s hn hf := by
    obtain ⟨-, rfl⟩ := isDir_of_folder hf
    exact congrArg (Listing.mk d.mode) (setTree_self hn)
  relink_again d n s t := congrArg (Listing.mk d.mode) (setTree_again s t d.ents)
  relink_comm d m n s t hm := congrArg (Listing.mk d.mode) (setTree_comm hm s t d.ents)

/-- What `insert` writes in the last directory. -/
def inserted (ent : DirEnt) (d : Listing) : Listing := ⟨d.mode, sortEnts (ent :: d.ents)⟩

/-- What `remove` writes in the last directory. -/
def removed (name : Bytes) (d : Listing) : Listing := ⟨d.mode, without name d.ents⟩

theorem orderedInsert_setTree {m : Bytes} (t : HTree) (hm : m ≠ ent.entName) :
    (setTree m t ents).orderedInsert Before ent = setTree m t (ents.orderedInsert Before ent) := by
  induction ents with
  | nil => exact (if_neg hm.symm).symm
  | cons a ents ih =>
    by_cases hea : Before ent a
    · rw [orderedInsert_cons_of_le Before _ hea, setTree_cons_of_ne t hm.symm]
      by_cases ha : a.entName = m
      · rw [setTree_cons_self t ha]
        exact orderedInsert_cons_of_le Before _ hea
      · rw [setTree_cons_of_ne t ha, orderedInsert_cons_of_le Before _ hea]
    · rw [orderedInsert_of_not_le Before _ hea]
      by_cases ha : a.entName = m
      · rw [setTree_cons_self t ha, setTree_cons_self t ha]
        exact orderedInsert_of_not_le Before _ hea
      · rw [setTree_cons_of_ne t ha, setTree_cons_of_ne t ha, orderedInsert_of_not_le Before _ hea, ih]

theorem inserted_local (hfun : Functional stored) (ent : DirEnt) : Local (links hfun) (inserted ent) ent.entName where
  find r d m hd hm := by
    obtain ⟨-, t, -, hf⟩ := hd
    simp only [links, inserted, sortEnts_cons hf.sorted]
    exact findEnt_insert_of_ne hm
  relink r d m s hd hm := by
    obtain ⟨-, t, -, hf⟩ := hd
    simp only [links, inserted, sortEnts_cons hf.sorted, sortEnts_cons (pairwise_setTree hf.sorted)]
    rw [orderedInsert_setTree s hm]

theorem orderedInsert_comm (hne : ent.entName ≠ f.entName) (ents : List DirEnt) :
    (ents.orderedInsert Before ent).orderedInsert Before f =
      (ents.orderedInsert Before f).orderedInsert Before ent := by
  have htotal : Before ent f ∨ Before f ent := Std.Total.total ent f
  have hboth : ¬ (Before ent f ∧ Before f ent) := fun h => hne (same_of_before h.1 h.2).2
  induction ents with
  | nil =>
    simp only [orderedInsert_nil, orderedInsert_cons]
    by_cases hef : Before ent f
    · have hfe : ¬ Before f ent := fun h => hboth ⟨hef, h⟩
      rw [if_neg hfe, if_pos hef]
    · have hfe := htotal.resolve_left hef
      rw [if_pos hfe, if_neg hef]
  | cons a ents ih =>
    by_cases hea : Before ent a
    · rw [orderedInsert_cons_of_le Before _ hea]
      by_cases hfa : Before f a
      · rw [orderedInsert_cons_of_le Before _ hfa]
        by_cases hef : Before ent f
        · have hfe : ¬ Before f ent := fun h => hboth ⟨hef, h⟩
          rw [orderedInsert_cons_of_le Before _ hef, orderedInsert_of_not_le Before _ hfe, orderedInsert_cons_of_le Before _ hfa]
        · rw [orderedInsert_of_not_le Before _ hef, orderedInsert_cons_of_le Before _ (htotal.resolve_left hef),
            orderedInsert_cons_of_le Before _ hea]
      · have hfe : ¬ Before f ent := fun h => hfa (trans_of Before h hea)
        rw [orderedInsert_of_not_le Before _ hfa, orderedInsert_of_not_le Before _ hfe, orderedInsert_of_not_le Before _ hfa,
          orderedInsert_cons_of_le Before _ hea]
    · rw [orderedInsert_of_not_le Before _ hea]
      by_cases hfa : Before f a
      · have hef : ¬ Before ent f := fun h => hea (trans_of Before h hfa)
        rw [orderedInsert_cons_of_le Before _ hfa, orderedInsert_cons_of_le Before _ hfa, orderedInsert_of_not_le Before _ hef,
          orderedInsert_of_not_le Before _ hea]
      · rw [orderedInsert_of_not_le Before _ hfa, orderedInsert_of_not_le Before _ hfa, orderedInsert_of_not_le Before _ hea, ih]

theorem inserted_comm (hne : ent.entName ≠ f.entName)
    (hs : d.ents.Pairwise Before) : inserted f (inserted ent d) = inserted ent (inserted f d) := by
  have hsorted : ∀ e : DirEnt, (d.ents.orderedInsert Before e).Pairwise Before := by
    intro e
    rw [← sortEnts_cons hs]
    exact pairwise_sortEnts _
  simp only [inserted, sortEnts_cons hs, sortEnts_cons (hsorted _)]
  rw [orderedInsert_comm hne]

theorem without_orderedInsert (hnew : findEnt ents ent.entName = none) :
    without ent.entName (ents.orderedInsert Before ent) = ents := by
  have hkeep : ∀ a ∈ ents, a.entName ≠ ent.entName := by
    intro a ha hname
    have hnone := List.find?_eq_none.mp hnew a ha
    simp [hname] at hnone
  have hself : without ent.entName ents = ents := by
    rw [without, filter_eq_self]
    intro a ha
    simpa using hkeep a ha
  rw [orderedInsert_eq_take_drop, without, filter_append, filter_cons_of_neg (by simp),
    ← filter_append, takeWhile_append_dropWhile]
  exact hself

theorem removed_inserted (hs : d.ents.Pairwise Before)
    (hnew : findEnt d.ents ent.entName = none) : removed ent.entName (inserted ent d) = d := by
  simp only [removed, inserted, sortEnts_cons hs]
  rw [without_orderedInsert hnew]

end Listings

section Depths

/-- The entry as it is read from its encoding. -/
def truncated (e : DirEnt) : DirEnt := { e with htree := { e.htree with depth := e.htree.depth % 256 } }

theorem encode_truncated (e : DirEnt) : (truncated e).encode = e.encode := by
  have hdepth : UInt8.ofNat (e.htree.depth % 256) = UInt8.ofNat e.htree.depth := by
    apply UInt8.toNat_inj.mp
    simp
  simp [truncated, DirEnt.encode, hdepth]

theorem sortEnts_truncated (ents : List DirEnt) : sortEnts (ents.map truncated) = (sortEnts ents).map truncated :=
  (map_insertionSort Before Before truncated ents (fun _ _ _ _ => Iff.rfl)).symm

theorem checkNames_truncated (ents : List DirEnt) : checkNames (ents.map truncated) = checkNames ents := by
  induction ents with
  | nil => rfl
  | cons a ents ih =>
    cases ents with
    | nil => rfl
    | cons b ents =>
      simp only [map_cons, checkNames] at ih ⊢
      rw [ih]
      rfl

theorem checkLengths_truncated (ents : List DirEnt) : checkLengths (ents.map truncated) = checkLengths ents := by
  induction ents with
  | nil => rfl
  | cons a ents ih =>
    simp only [map_cons, checkLengths, ih]
    rfl

theorem encodeEnts_truncated (ents : List DirEnt) : encodeEnts (ents.map truncated) = encodeEnts ents := by
  rw [encodeEnts, encodeEnts, flatMap_map]
  exact flatMap_congr (fun e _ => encode_truncated e)

theorem writeDir_truncated {ω : Type} (indir : List DirEnt) (mode : UInt32) :
    writeDir (ω := ω) (indir.map truncated) mode = writeDir indir mode := by
  have hlens : checkLengths (dotEnt mode :: (sortEnts indir).map truncated) =
      checkLengths (dotEnt mode :: sortEnts indir) := by
    rw [checkLengths, checkLengths, checkLengths_truncated]
  have henc : encodeEnts (dotEnt mode :: (sortEnts indir).map truncated) =
      encodeEnts (dotEnt mode :: sortEnts indir) :=
    congrArg ((dotEnt mode).encode ++ ·) (encodeEnts_truncated _)
  simp only [writeDir, sortEnts_truncated, checkNames_truncated, hlens, henc]

end Depths

section Sizes

variable {ents ents' : List DirEnt} {more : ℕ} {name : Bytes} {ent : DirEnt}

/-- The names can be told apart, and there is room for `more` bytes. -/
structure Roomy (more : ℕ) (ents : List DirEnt) : Prop where
  named : Named ents
  size : dirSize (ents.map DirEnt.entName) + more < 2 ^ 63

theorem Roomy.less {less : ℕ} (h : Roomy more ents) (hless : less ≤ more) : Roomy less ents :=
  ⟨h.named, Nat.lt_of_le_of_lt (Nat.add_le_add_left hless _) h.size⟩

theorem Roomy.not_refused (h : Roomy more ents) (hshort : ∀ e ∈ ents, e.entName.length ≤ 65535) : ¬ Refused ents := by
  intro hrefused
  cases hrefused with
  | names hbad =>
    cases hbad with
    | sameKind hapart =>
      apply hapart
      have hnodup := h.named.distinct
      rw [List.Nodup, pairwise_map] at hnodup
      exact hnodup.imp (fun {a b} hne (_ : a.isDir = b.isDir) => hne)
    | dot ha _ hdot _ => exact (h.named.proper _ ha).ne_dot hdot
    | mixed ha hb hdir hfile hname _ =>
      rw [inj_on_of_nodup_map h.named.distinct ha hb hname, hfile] at hdir
      cases hdir
  | long he hlen => exact absurd (hshort _ he) (Nat.not_le.mpr hlen)
  | large hlarge =>
    have hsize := h.size
    omega

theorem Roomy.setTree (h : Roomy more ents) (t : HTree) : Roomy more (setTree name t ents) := by
  refine ⟨named_setTree t h.named, ?_⟩
  rw [map_entName_setTree]
  exact h.size

theorem dirSize_perm {names names' : List Bytes} (h : names.Perm names') : dirSize names = dirSize names' := by
  rw [dirSize, dirSize, (h.map _).sum_eq]

theorem Roomy.perm (h : Roomy more ents) (hperm : ents.Perm ents') : Roomy more ents' := by
  have hnames := hperm.map DirEnt.entName
  refine ⟨⟨fun e he => h.named.proper e (hperm.mem_iff.mpr he), hnames.nodup_iff.mp h.named.distinct⟩, ?_⟩
  rw [← dirSize_perm hnames]
  exact h.size

theorem named_cons (h : Named ents) (hproper : Proper ent.entName) (hnew : findEnt ents ent.entName = none) :
    Named (ent :: ents) := by
  refine ⟨forall_mem_cons.mpr ⟨hproper, h.proper⟩, ?_⟩
  rw [map_cons, nodup_cons]
  refine ⟨fun hmem => ?_, h.distinct⟩
  obtain ⟨a, ha, hname⟩ := mem_map.mp hmem
  rw [← hname, findEnt_of_mem h.distinct ha] at hnew
  cases hnew

theorem Roomy.cons (h : Roomy (ent.entName.length + 55 + more) ents) (hproper : Proper ent.entName)
    (hnew : findEnt ents ent.entName = none) : Roomy more (ent :: ents) := by
  refine ⟨named_cons h.named hproper hnew, ?_⟩
  have hroom := h.size
  simp only [dirSize, map_cons, sum_cons] at hroom ⊢
  omega

theorem Roomy.without (h : Roomy more ents) : Roomy more (without name ents) := by
  refine ⟨named_without h.named, ?_⟩
  have hsub : (TreeEdits.without name ents).Sublist ents := filter_sublist
  have hle := ((hsub.map DirEnt.entName).map (fun n => n.length + 55)).sum_le_sum (by simp)
  have hsize := h.size
  simp only [dirSize] at hsize ⊢
  omega

end Sizes

section Runs

variable {ω : Type} {sha256 : Bytes → Hash} {s s' : List Bytes} (room : ℕ → ℕ)

/-- The tree of the directory with the listing. -/
def writeListing (sha256 : Bytes → Hash) (d : Listing) : Option HTree :=
  (listingTree sha256 d.mode d.ents).toOption

theorem listingTree_sortEnts (mode : UInt32) (ents : List DirEnt) :
    listingTree sha256 mode (sortEnts ents) = listingTree sha256 mode ents := by
  rw [listingTree, listingTree, writeDir, writeDir, sortEnts_eq (pairwise_sortEnts ents)]

variable {mode : UInt32} {u : HTree} {r : DirEnt}

theorem exec_writeDir (sha256 : Bytes → Hash) {indir : List DirEnt} {t : HTree} (w : ω) (s : List Bytes)
    (hok : ¬ Refused indir) (hdepth : ∀ e ∈ indir, e.htree.depth < 256) (hmode : mode ||| modeDir = mode) :
    ∃ r w' s', exec (memStore sha256) (writeDir indir (rootEnt mode t).entMode) w s = (.ok r, w', s') ∧
      (∃ ws, s' = ws ++ s) ∧ r = rootEnt mode r.htree ∧ r.htree.depth ≤ 6 ∧
      Folder (Stored sha256 s') r.htree mode (sortEnts indir) ∧
      writeListing sha256 ⟨mode, sortEnts indir⟩ = some r.htree := by
  obtain ⟨r, hr⟩ := written_of_not_refused sha256 (rootEnt mode t).entMode w s hok
  rcases hrun : exec (memStore sha256) (writeDir indir (rootEnt mode t).entMode) w s with ⟨x, w', s'⟩
  rw [hrun] at hr
  obtain rfl : x = .ok r := hr
  obtain ⟨hgrow, hroot, hdepth', hf⟩ := writeDir_again hdepth hrun
  refine ⟨r, w', s', rfl, hgrow, hroot, hdepth', hf, ?_⟩
  have hsame := writeDir_anywhere sha256 indir (rootEnt mode t).entMode w s
  have hentMode : (rootEnt mode t).entMode = mode := hmode
  rw [hrun, hentMode] at hsame
  rw [writeListing, listingTree_sortEnts, listingTree, ← hsame]
  rfl

/-- What a change that succeeded leaves behind. -/
structure Made (sha256 : Bytes → Hash) (g : Listing → Listing) (path : List Bytes) (u : HTree)
    (s s' : List Bytes) (r : DirEnt) : Prop where
  grows : ∃ ws, s' = ws ++ s
  depth : r.htree.depth ≤ 6
  root : ∃ t mode ents ents', t.data = u.data ∧ Folder (Stored sha256 s) t mode ents ∧
    Folder (Stored sha256 s') r.htree mode ents' ∧ r = rootEnt mode r.htree
  rewritten : ∀ hinj' : Set.InjOn sha256 {c | c ∈ s'},
    Rewritten (links (functional_stored hinj')) (writeListing sha256) g path u r.htree

theorem Made.newRoot {g : Listing → Listing} {path : List Bytes} {t : HTree} {ents : List DirEnt}
    (h : Made sha256 g path u s s' r) (hinj : Set.InjOn sha256 {c | c ∈ s}) (hf : Folder (Stored sha256 s) t mode ents)
    (htu : t.data = u.data) : r = rootEnt mode r.htree ∧ ∃ ents', Folder (Stored sha256 s') r.htree mode ents' :=
  newRoot_of_folders h.root hinj hf htu

theorem Made.rewritten_in {g : Listing → Listing} {path : List Bytes} {s s' stored : List Bytes}
    (h : Made sha256 g path u s s' r) (hsub : ∀ c ∈ s', c ∈ stored) (hinj : Set.InjOn sha256 {c | c ∈ stored}) :
    Rewritten (links (functional_stored hinj)) (writeListing sha256) g path u r.htree := by
  have hinj' : Set.InjOn sha256 {c | c ∈ s'} := hinj.mono hsub
  exact (h.rewritten hinj').mono (links_extends _ _ (fun _ c hc => ⟨hsub c hc.1, hc.2⟩))

/-- The method makes the change `g` of the directory at the path if it satisfies `P`. -/
def Performs (sha256 : Bytes → Hash) (g : Listing → Listing) (P : Listing → Prop) (path : List Bytes)
    (change : Hash → StoreM ω DirEnt) : Prop :=
  ∀ (u : HTree) (w : ω) (s : List Bytes) (hinj : Set.InjOn sha256 {c | c ∈ s}),
    Way (links (functional_stored hinj)) (fun _ d => Roomy 0 d.ents) (fun _ => P) path u →
    ∃ r w' s', Method.exec (memStore sha256) (change u.data) w s = (.ok r, w', s') ∧
      Made sha256 g path u s s' r

variable {g : Listing → Listing} {P : Listing → Prop} {path : List Bytes}
  {change : Hash → StoreM ω DirEnt}

theorem contents_grows {hfun : Functional (Stored sha256 s)} {hfun' : Functional (Stored sha256 s')}
    (hgrow : ∃ ws, s' = ws ++ s) {d : Listing} (hd : (links hfun).contents u d) : (links hfun').contents u d :=
  (links_extends hfun hfun' (stored_grows sha256 hgrow)).contents u d hd

theorem Performs.deeper {elem : Bytes} (helem : Proper elem) (hchange : Performs sha256 g P path change) :
    Performs sha256 g P (elem :: path) (fun h => readDir room h >>= fun ents => changeFolder change elem ents) := by
  intro u w s hinj hway
  cases hway with
  | @step _ _ d e _ _ hd hQ hn hfold hrest =>
    obtain ⟨hdir, rfl⟩ := isDir_of_folder hfold
    obtain ⟨r₁, w₁, s₁, hinner, hmade⟩ := hchange e.htree w s hinj hrest
    obtain ⟨hm, t, htu, hf⟩ := id hd
    obtain ⟨mode, ents⟩ := d
    dsimp only at hm hf hQ
    have hfind : findEnt ents elem = some e := hn
    have hents := encodable_setTree elem hf.encodable
      (show r₁.htree.depth < 256 from Nat.lt_of_le_of_lt hmade.depth (by decide))
    have hok : ¬ Refused (setTree elem r₁.htree ents) :=
      (hQ.setTree r₁.htree).not_refused (fun a ha => (hents a ha).name)
    obtain ⟨r, w', s', hwrite, hgrow, hroot, hdepth, hf', hlist⟩ :=
      exec_writeDir sha256 (t := t) w₁ s₁ hok (fun a ha => (hents a ha).depth) hm
    rw [sortEnts_eq (pairwise_setTree hf.sorted)] at hf' hlist
    have hgrows : ∃ ws, s' = ws ++ s := by
      obtain ⟨ws, rfl⟩ := hmade.grows
      obtain ⟨ws₁, rfl⟩ := hgrow
      exact ⟨ws₁ ++ ws, by simp⟩
    refine ⟨r, w', s', ?_, hgrows, hdepth, ⟨t, mode, ents, _, htu, hf, hf', hroot⟩, ?_⟩
    · rw [← htu, exec_changeFolder room w hinj hf helem, hfind]
      simp only [hdir, if_true]
      rw [exec_bind_ok _ hinner]
      exact hwrite
    · intro hinj'
      have hinj₁ := injOn_of_exec hwrite hinj'
      have hext := links_extends (functional_stored hinj₁) (functional_stored hinj') (stored_grows sha256 hgrow)
      exact .deeper (contents_grows hgrows hd) hn hfold ((hmade.rewritten hinj₁).mono hext) ⟨hm, _, rfl, hf'⟩ hlist

theorem insertAt_performs {ent : DirEnt} (hent : ent.Encodable) {path : List Bytes} (hpath : ∀ e ∈ path, Proper e) :
    Performs (ω := ω) sha256 (inserted ent) (fun d => Roomy 0 (ent :: d.ents)) path (insertAt room ent path) := by
  induction path with
  | nil =>
    intro u w s hinj hway
    cases hway with
    | @here _ d hd hP =>
      obtain ⟨hm, t, htu, hf⟩ := id hd
      obtain ⟨mode, ents⟩ := d
      dsimp only at hm hf hP
      have hents : ∀ e ∈ ent :: ents, e.Encodable := forall_mem_cons.mpr ⟨hent, hf.encodable⟩
      have hok := hP.not_refused (fun e he => (hents e he).name)
      obtain ⟨r, w', s', hwrite, hgrow, hroot, hdepth, hf', hlist⟩ :=
        exec_writeDir sha256 (t := t) w s hok (fun e he => (hents e he).depth) hm
      refine ⟨r, w', s', ?_, hgrow, hdepth, ⟨t, mode, ents, _, htu, hf, hf', hroot⟩, ?_⟩
      · rw [insertAt, ← htu, exec_bind_ok _ (readDir_folder room w hinj hf)]
        exact hwrite
      · intro hinj'
        exact .here (contents_grows hgrow hd) ⟨hm, _, rfl, hf'⟩ hlist
  | cons elem path ih =>
    have hrest := ih (fun e he => hpath e (mem_cons_of_mem elem he))
    exact hrest.deeper room (hpath elem mem_cons_self)

theorem length_without_le {name : Bytes} {ents : List DirEnt} {e : DirEnt} (h : findEnt ents name = some e) :
    (without name ents).length ≤ ents.length - 1 := by
  have hlt : (without name ents).length < ents.length := by
    apply length_filter_lt_length_iff_exists.mpr
    obtain ⟨he, hname⟩ := mem_of_findEnt h
    exact ⟨e, he, by simp [hname]⟩
  omega

theorem removeEnt_performs (name : Bytes) :
    Performs (ω := ω) sha256 (removed name) (fun d => Roomy 0 d.ents ∧ ∃ e, findEnt d.ents name = some e) []
      (fun h => readDir room h >>= removeEnt name) := by
  intro u w s hinj hway
  cases hway with
  | @here _ d hd hP =>
    obtain ⟨hroom, e, he⟩ := hP
    obtain ⟨hm, t, htu, hf⟩ := id hd
    obtain ⟨mode, ents⟩ := d
    dsimp only at hm hf hroom he
    have hents : ∀ e ∈ without name ents, e.Encodable := fun e he => hf.encodable e (mem_filter.mp he).1
    have hok := hroom.without.not_refused (fun e he => (hents e he).name)
    obtain ⟨r, w', s', hwrite, hgrow, hroot, hdepth, hf', hlist⟩ :=
      exec_writeDir sha256 (t := t) w s hok (fun e he => (hents e he).depth) hm
    have hsorted : (without name ents).Pairwise Before := hf.sorted.filter _
    rw [sortEnts_eq hsorted] at hf' hlist
    refine ⟨r, w', s', ?_, hgrow, hdepth, ⟨t, mode, ents, _, htu, hf, hf', hroot⟩, ?_⟩
    · have hne : ents ≠ [] := ne_nil_of_mem (mem_of_findEnt he).1
      rw [← htu, exec_bind_ok _ (readDir_folder room w hinj hf), removeEnt, if_neg hne]
      have hshort : ¬ (without name ents).length > ents.length - 1 := Nat.not_lt.mpr (length_without_le he)
      exact (congrArg (fun x => exec (memStore sha256) x w s) (if_neg hshort)).trans hwrite
    · intro hinj'
      exact .here (contents_grows hgrow hd) ⟨hm, _, rfl, hf'⟩ hlist

theorem remove_performs {p name : Bytes} {path : List Bytes} (hp : elems p = path ++ [name]) :
    Performs (ω := ω) sha256 (removed name) (fun d => Roomy 0 d.ents ∧ ∃ e, findEnt d.ents name = some e) path
      (fun h => remove room h p) :=
  remove_induction room hp (removeEnt_performs room name) (fun helem h => h.deeper room helem)

end Runs

end Bpy.TreeRewrites
