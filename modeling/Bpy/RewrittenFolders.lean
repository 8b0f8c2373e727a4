import Bpy.LinkedFolders

/-!
# Writing folders again

A folder is changed by writing its new listing, and the reference of what is written is
determined by the listing. A change that is taken back therefore leads back to the old
reference, and changes in different places lead to the same reference in both orders.
-/
namespace Bpy.RewrittenFolders
open LinkedFolders Links

variable {N E R D : Type}

/-- From `r` to `r'` the folder at the path is written with the listing that `g` makes of its
old one, and the folders above it are written with the new references. -/
inductive Rewritten (L : Links N E R D) (write : D → Option R) (g : D → D) : List N → R → R → Prop
  | here {r r' : R} {d : D} (hd : L.contents r d) (hd' : L.contents r' (g d))
      (hw : write (g d) = some r') : Rewritten L write g [] r r'
  | deeper {r r' s s' : R} {d : D} {e : E} {n : N} {ns : List N} (hd : L.contents r d)
      (hn : L.find d n = some e) (hf : L.folder e = some s) (h : Rewritten L write g ns s s')
      (hd' : L.contents r' (L.relink d n s')) (hw : write (L.relink d n s') = some r') :
      Rewritten L write g (n :: ns) r r'

/-- The path leads to a folder. The folder satisfies `P`, and the folders above it `Q`. -/
inductive Way (L : Links N E R D) (Q P : R → D → Prop) : List N → R → Prop
  | here {r : R} {d : D} (hd : L.contents r d) (hP : P r d) : Way L Q P [] r
  | step {r s : R} {d : D} {e : E} {n : N} {ns : List N} (hd : L.contents r d) (hQ : Q r d)
      (hn : L.find d n = some e) (hf : L.folder e = some s) (h : Way L Q P ns s) :
      Way L Q P (n :: ns) r

/-- References of a listing can be set one by one. -/
structure Lawful (L : Links N E R D) : Prop where
  relink_self : ∀ d n e s, L.find d n = some e → L.folder e = some s → L.relink d n s = d
  relink_again : ∀ d n s t, L.relink (L.relink d n s) n t = L.relink d n t
  relink_comm : ∀ d m n s t, m ≠ n → L.relink (L.relink d m s) n t = L.relink (L.relink d n t) m s

/-- The change `g` of a listing is about the name `n` only. -/
structure Local (L : Links N E R D) (g : D → D) (n : N) : Prop where
  find : ∀ r d m, L.contents r d → m ≠ n → L.find (g d) m = L.find d m
  relink : ∀ r d m s, L.contents r d → m ≠ n → g (L.relink d m s) = L.relink (g d) m s

variable {L L' : Links N E R D} {write : D → Option R} {g g' : D → D} {p q : List N} {n n' : N}
  {r r' r₁ r₂ r₁₂ r₂₁ : R} {d : D} {e a : E}

theorem Rewritten.mono (hL : L.Extends L') (h : Rewritten L write g p r r') : Rewritten L' write g p r r' := by
  induction h with
  | here hd hd' hw => exact .here (hL.contents _ _ hd) (hL.contents _ _ hd') hw
  | deeper hd hn hf _ hd' hw ih =>
    rw [← hL.relink] at hd' hw
    exact .deeper (hL.contents _ _ hd) (by rw [hL.find, hn]) (by rw [hL.folder, hf]) ih (hL.contents _ _ hd') hw

theorem rewritten_nil (hd : L.contents r d) (h : Rewritten L write g [] r r') :
    L.contents r' (g d) ∧ write (g d) = some r' := by
  cases h with
  | here hd₀ hd' hw =>
    rw [L.unique _ _ _ hd hd₀]
    exact ⟨hd', hw⟩

theorem rewritten_cons {s : R} {ns : List N} (hd : L.contents r d) (hn : L.find d n = some e)
    (hf : L.folder e = some s) (h : Rewritten L write g (n :: ns) r r') :
    ∃ s', Rewritten L write g ns s s' ∧ L.contents r' (L.relink d n s') ∧ write (L.relink d n s') = some r' := by
  cases h with
  | deeper hd₀ hn₀ hf₀ h hd' hw =>
    obtain rfl := L.unique _ _ _ hd hd₀
    rw [hn, Option.some.injEq] at hn₀
    subst hn₀
    rw [hf, Option.some.injEq] at hf₀
    subst hf₀
    exact ⟨_, h, hd', hw⟩

theorem Rewritten.unique (h : Rewritten L write g p r r') (h' : Rewritten L write g p r r₁) : r' = r₁ := by
  induction h generalizing r₁ with
  | here hd _ hw =>
    obtain ⟨-, hw'⟩ := rewritten_nil hd h'
    exact Option.some.inj (hw.symm.trans hw')
  | deeper hd hn hf _ _ hw ih =>
    obtain ⟨s', h', -, hw'⟩ := rewritten_cons hd hn hf h'
    rw [← ih h'] at hw'
    exact Option.some.inj (hw.symm.trans hw')

theorem Rewritten.undo (hL : Lawful L) {P : R → D → Prop} (hback : ∀ r d, P r d → g' (g d) = d)
    (hway : Way L (fun r d => write d = some r) (fun r d => P r d ∧ write d = some r) p r)
    (h : Rewritten L write g p r r₁) (h' : Rewritten L write g' p r₁ r₂) : r₂ = r := by
  induction hway generalizing r₁ r₂ with
  | here hd hP =>
    obtain ⟨hd₁, -⟩ := rewritten_nil hd h
    obtain ⟨-, hw⟩ := rewritten_nil hd₁ h'
    rw [hback _ _ hP.1, hP.2] at hw
    exact (Option.some.inj hw).symm
  | step hd hQ hn hf _ ih =>
    obtain ⟨s₁, hs₁, hd₁, -⟩ := rewritten_cons hd hn hf h
    obtain ⟨s₂, hs₂, -, hw⟩ := rewritten_cons hd₁ (L.find_relink _ _ _ _ hn) (L.folder_link _ _ _ hf) h'
    rw [ih hs₁ hs₂, hL.relink_again, hL.relink_self _ _ _ _ hn hf, hQ] at hw
    exact (Option.some.inj hw).symm

theorem Rewritten.comm_below {m : N} {ms : List N} (hg : Local L g n) (hm : m ≠ n)
    (h₁ : Rewritten L write g [] r r₁) (h₁₂ : Rewritten L write g' (m :: ms) r₁ r₁₂)
    (h₂ : Rewritten L write g' (m :: ms) r r₂) (h₂₁ : Rewritten L write g [] r₂ r₂₁) : r₁₂ = r₂₁ := by
  cases h₂ with
  | deeper hd hn hf h₂ hd₂ _ =>
    obtain ⟨hd₁, -⟩ := rewritten_nil hd h₁
    obtain ⟨s, hs, -, hw⟩ := rewritten_cons hd₁ ((hg.find _ _ _ hd hm).trans hn) hf h₁₂
    obtain ⟨-, hw'⟩ := rewritten_nil hd₂ h₂₁
    rw [hg.relink _ _ _ _ hd hm, h₂.unique hs, hw] at hw'
    exact Option.some.inj hw'

theorem Rewritten.comm (hL : Lawful L) (hg : Local L g n) (hg' : Local L g' n')
    (hcomm : p = q → ∀ r d, L.contents r d → g' (g d) = g (g' d))
    (hpq : ¬ p ++ [n] <+: q) (hqp : ¬ q ++ [n'] <+: p)
    (h₁ : Rewritten L write g p r r₁) (h₁₂ : Rewritten L write g' q r₁ r₁₂)
    (h₂ : Rewritten L write g' q r r₂) (h₂₁ : Rewritten L write g p r₂ r₂₁) : r₁₂ = r₂₁ := by
  induction p generalizing q r r₁ r₂ r₁₂ r₂₁ with
  | nil =>
    cases q with
    | nil =>
      cases h₁ with
      | here hd hd₁ _ =>
        obtain ⟨hd₂, -⟩ := rewritten_nil hd h₂
        obtain ⟨-, hw⟩ := rewritten_nil hd₁ h₁₂
        obtain ⟨-, hw'⟩ := rewritten_nil hd₂ h₂₁
        rw [← hcomm rfl _ _ hd, hw] at hw'
        exact Option.some.inj hw'
    | cons m ms =>
      have hm : m ≠ n := by
        intro hmn
        apply hpq
        simp [hmn]
      exact comm_below hg hm h₁ h₁₂ h₂ h₂₁
  | cons k ks ih =>
    cases q with
    | nil =>
      have hk : k ≠ n' := by
        intro hkn
        apply hqp
        simp [hkn]
      exact (comm_below hg' hk h₂ h₂₁ h₁ h₁₂).symm
    | cons m ms =>
      cases h₁ with
      | @deeper _ _ s s₁ _ _ _ _ hd hn hf h₁ hd₁ _ =>
        by_cases hmk : m = k
        · subst hmk
          simp only [List.cons_append, List.cons_prefix_cons, true_and] at hpq hqp
          obtain ⟨s₁₂, hs₁₂, -, hw⟩ := rewritten_cons hd₁ (L.find_relink _ _ _ _ hn) (L.folder_link _ _ _ hf) h₁₂
          obtain ⟨s₂, hs₂, hd₂, -⟩ := rewritten_cons hd hn hf h₂
          obtain ⟨s₂₁, hs₂₁, -, hw'⟩ := rewritten_cons hd₂ (L.find_relink _ _ _ _ hn) (L.folder_link _ _ _ hf) h₂₁
          have hsame := ih (fun h => hcomm (by rw [h])) hpq hqp h₁ hs₁₂ hs₂ hs₂₁
          rw [hL.relink_again] at hw hw'
          rw [← hsame, hw] at hw'
          exact Option.some.inj hw'
        · cases h₂ with
          | @deeper _ _ _ s₂ d₀ c _ _ hd₀ hm hfm h₂ hd₂ _ =>
            obtain rfl := L.unique _ _ _ hd hd₀
            obtain ⟨s₁₂, hs₁₂, -, hw⟩ := rewritten_cons hd₁ ((L.find_relink_of_ne _ _ _ _ hmk).trans hm) hfm h₁₂
            obtain ⟨s₂₁, hs₂₁, -, hw'⟩ :=
              rewritten_cons hd₂ ((L.find_relink_of_ne _ _ _ _ (Ne.symm hmk)).trans hn) hf h₂₁
            rw [h₂.unique hs₁₂, ← h₁.unique hs₂₁, ← hL.relink_comm _ _ _ _ _ (Ne.symm hmk), hw] at hw'
            exact Option.some.inj hw'

section Ways

variable {Q Q' P P' : R → D → Prop}

theorem Way.mono (hL : L.Extends L') (hQ : ∀ r d, Q r d → Q' r d) (hP : ∀ r d, P r d → P' r d)
    (h : Way L Q P p r) : Way L' Q' P' p r := by
  induction h with
  | here hd hp => exact .here (hL.contents _ _ hd) (hP _ _ hp)
  | step hd hq hn hf _ ih =>
    exact .step (hL.contents _ _ hd) (hQ _ _ hq) (by rw [hL.find, hn]) (by rw [hL.folder, hf]) ih

/-- There is a way to every folder that a path leads to, if `I` holds of all folders and says
what their listings satisfy. -/
theorem way_of_invariant {I : R → Prop} {s : R} (hI : ∀ r, I r → ∃ d, L.contents r d ∧ Q r d ∧
      ∀ n e s, L.find d n = some e → L.folder e = some s → I s)
    (hf : L.folder e = some r) (hr : I r) (ha : L.Resolves e p (.ok a)) (hs : L.folder a = some s)
    (hP : ∀ d, L.contents s d → Q s d → P s d) : Way L Q P p r := by
  obtain ⟨d, hd, hQ, hsub⟩ := hI r hr
  induction p generalizing e r d with
  | nil =>
    cases ha
    rw [hf, Option.some.injEq] at hs
    subst hs
    exact .here hd (hP d hd hQ)
  | cons m ms ih =>
    rcases (resolves_cons hf hd).mp ha with ⟨-, ha⟩ | ⟨b, hm, ha⟩
    · cases ha
    · cases hb : L.folder b with
      | some t =>
        have ht := hsub m b t hm hb
        obtain ⟨d', hd', hQ', hsub'⟩ := hI t ht
        exact .step hd hQ hm hb (ih hb ht ha d' hd' hQ' hsub')
      | none =>
        cases ha with
        | here => simp [hb] at hs
        | step hb' => simp [hb] at hb'

theorem way_of_tree {T : D → Prop} {s : R} (hf : L.folder e = some r) (ht : L.Tree T r) (ha : L.Resolves e p (.ok a))
    (hs : L.folder a = some s) (hP : ∀ d, L.contents s d → T d → P s d) : Way L (fun _ => T) P p r := by
  apply way_of_invariant _ hf ht ha hs hP
  intro r hr
  cases hr with
  | intro hd hT hsub => exact ⟨_, hd, hT, hsub⟩

/-- A way that does not use the name of the change is there after the change. The listing that
is changed satisfies `F`. -/
theorem Rewritten.way {Q Q' P P' F : D → Prop} (hg : Local L g n) (h : Rewritten L write g p r r₁)
    (hF : Way L (fun _ _ => True) (fun _ => F) p r) (hpq : ¬ p ++ [n] <+: q)
    (hQ : ∀ d d', Q d → d' = d ∨ (F d ∧ d' = g d) ∨ (∃ m s, d' = L.relink d m s) → Q' d')
    (hP : ∀ d d', P d → (p ≠ q ∧ d' = d) ∨ (p = q ∧ F d ∧ d' = g d) ∨ (p ≠ q ∧ ∃ m s, d' = L.relink d m s) → P' d')
    (hway : Way L (fun _ => Q) (fun _ => P) q r) : Way L (fun _ => Q') (fun _ => P') q r₁ := by
  have hkeep : ∀ {q r}, (∀ d, P d → P' d) → Way L (fun _ => Q) (fun _ => P) q r →
      Way L (fun _ => Q') (fun _ => P') q r :=
    fun hP => Way.mono (.refl L) (fun _ d hq => hQ d d hq (.inl rfl)) (fun _ => hP)
  induction h generalizing q with
  | here hd hd₁ _ =>
    cases hF with
    | here hdF hF =>
      rw [L.unique _ _ _ hdF hd] at hF
      cases hway with
      | here hd₀ hp =>
        rw [L.unique _ _ _ hd₀ hd] at hp
        exact .here hd₁ (hP _ _ hp (.inr (.inl ⟨rfl, hF, rfl⟩)))
      | @step _ _ _ _ m _ hd₀ hq hm hf hway =>
        rw [L.unique _ _ _ hd₀ hd] at hq hm
        have hmn : m ≠ n := by
          intro hmn
          apply hpq
          simp [hmn]
        exact .step hd₁ (hQ _ _ hq (.inr (.inl ⟨hF, rfl⟩))) ((hg.find _ _ _ hd hmn).trans hm) hf
          (hkeep (fun d hp => hP d d hp (.inl ⟨by simp, rfl⟩)) hway)
  | @deeper _ _ s s' d c k ks hd hn hf h hd' _ ih =>
    cases hF with
    | step hdF _ hnF hfF hF =>
      rw [L.unique _ _ _ hdF hd, hn, Option.some.injEq] at hnF
      subst hnF
      rw [hf, Option.some.injEq] at hfF
      subst hfF
      cases hway with
      | here hd₀ hp =>
        rw [L.unique _ _ _ hd₀ hd] at hp
        exact .here hd' (hP _ _ hp (.inr (.inr ⟨by simp, _, _, rfl⟩)))
      | @step _ _ _ _ m ms hd₀ hq hm hfm hway =>
        rw [L.unique _ _ _ hd₀ hd] at hq hm
        have hq' := hQ _ _ hq (.inr (.inr ⟨k, s', rfl⟩))
        by_cases hmk : m = k
        · subst hmk
          simp only [List.cons_append, List.cons_prefix_cons, true_and] at hpq
          rw [hn, Option.some.injEq] at hm
          subst hm
          rw [hf, Option.some.injEq] at hfm
          subst hfm
          simp only [ne_eq, List.cons.injEq, true_and] at hP
          exact .step hd' hq' (L.find_relink _ _ _ _ hn) (L.folder_link _ _ _ hf) (ih hF hpq hP hway)
        · have hne : k :: ks ≠ m :: ms := fun h => hmk (List.cons.inj h).1.symm
          exact .step hd' hq' ((L.find_relink_of_ne _ _ _ _ hmk).trans hm) hfm
            (hkeep (fun d hp => hP d d hp (.inl ⟨hne, rfl⟩)) hway)

end Ways

end Bpy.RewrittenFolders
