import Componentry.Proofs.Live.Stack

/-!
# Walks over a tree

A visit turns its node and no other, and what it adds comes under that node, where it is visited in
turn. So what agreed with the tree still does when a walk is over, and so does all that is under its
start: it is connected if it stands in the document, and not otherwise.
-/

namespace Componentry.Live

open Document List

variable {σ : Type}

namespace Page

variable {s t : Page σ} {n m p c : NodeId} {roots : List NodeId} {log : σ → Diary} {live : Prop}

/-! ### Elements that agree with the tree -/

/-- An element is connected if it stands in the document, and not otherwise, and in the document it has
an instance if its tag has a component. -/
structure Agrees (s : Page σ) (n : NodeId) : Prop where
  /-- It is connected exactly if it stands in the document. -/
  connected_iff : ∀ x, s.standing n = some x → (x.state = .connected ↔ s.InDocument n)
  /-- In the document it has an instance if its tag has a component. -/
  present : s.InDocument n → ∀ tag cls, s.forest.tag? n = some tag → s.registry.find? tag = some cls →
    ∃ x, s.standing n = some x

theorem Housed.inDocument_child {rel : Forest → Forest → Prop} (h : s.Housed rel) (hp : s.forest.composedParent c = some p) :
    s.InDocument c ↔ s.InDocument p := by
  have hne : c ≠ s.document := by
    rintro rfl
    rw [h.document_root] at hp
    cases hp
  constructor
  · intro hl
    obtain ⟨q, hq, hl⟩ := hl.parent hne
    rw [hp] at hq
    exact Option.some.inj hq ▸ hl
  · exact fun hl => hl.step hp

theorem not_inDocument_of_root (hn : s.forest.composedParent n = none) (hne : n ≠ s.document) :
    ¬ s.InDocument n := fun hl => hne (hl.eq_of_root hn)

theorem inDocument_iff (hf : s.forest.Extends t.forest) (hd : t.document = s.document)
    (hs : s.forest.WellFormed) (hm : m < s.forest.nodes.size) : t.InDocument m ↔ s.InDocument m := by
  unfold InDocument
  rw [hd]
  exact hf.under_iff hs hm

/-- What is not under a visited element agrees as before. -/
theorem Visited.agrees (h : s.Visited log t n) (hs : s.Sound log) (hm : ¬ t.forest.Under n m)
    (ha : s.Agrees m) : t.Agrees m := by
  have hstanding := h.apart m fun he => hm (he ▸ .refl _ _)
  by_cases hlt : m < s.forest.nodes.size
  · have hin := inDocument_iff h.forest h.document hs.wellFormed hlt
    constructor
    · rw [hstanding, hin]
      exact ha.connected_iff
    · rw [hstanding, hin, h.forest.tag_eq hlt, h.registry]
      exact ha.present
  · have hroot : t.forest.composedParent m = none := by
      cases hp : t.forest.composedParent m with
      | none => rfl
      | some p => exact absurd (h.fresh m p (not_lt.mp hlt) hp) hm
    have hne : m ≠ t.document := by
      rw [h.document]
      exact fun he => hlt (he ▸ hs.document_lt)
    have hdead := not_inDocument_of_root hroot hne
    constructor
    · rw [hstanding, hs.standing_of_size_le (not_lt.mp hlt)]
      nofun
    · exact fun hl => absurd hl hdead

/-! ### Walks -/

/-- In the end all that was under certain roots agrees with the tree, and what agreed still does. -/
structure Settles (log : σ → Diary) (s t : Page σ) (roots : List NodeId) : Prop where
  coherent : t.Coherent log
  forest : s.forest.Extends t.forest
  document : t.document = s.document
  agrees : ∀ m, s.Agrees m ∨ s.Beneath roots m → t.Agrees m

theorem Settles.refl (h : s.Coherent log) : s.Settles log s [] :=
  ⟨h, .refl _, rfl, fun _ hm => hm.resolve_right fun ⟨_, hr, _⟩ => absurd hr not_mem_nil⟩

theorem Settles.foldl {step : Page σ → NodeId → Page σ} {roots : NodeId → List NodeId}
    (hstep : ∀ (s : Page σ) c, s.Coherent log → c < s.forest.nodes.size → (s.InDocument c ↔ live) →
      s.Settles log (step s c) (roots c)) (cs : List NodeId) (hs : s.Coherent log)
    (hcs : ∀ c ∈ cs, c < s.forest.nodes.size ∧ (s.InDocument c ↔ live)) :
    s.Settles log (cs.foldl step s) (cs.flatMap roots) := by
  induction cs generalizing s with
  | nil => exact .refl hs
  | cons c cs ih =>
    obtain ⟨⟨hc, hlive⟩, hrest⟩ := forall_mem_cons.mp hcs
    have hfirst := hstep s c hs hc hlive
    have hsecond := ih hfirst.coherent fun c hc => ⟨hfirst.forest.lt_size (hrest c hc).1,
      (inDocument_iff hfirst.forest hfirst.document hs.wellFormed (hrest c hc).1).trans (hrest c hc).2⟩
    refine ⟨hsecond.coherent, hfirst.forest.trans hsecond.forest,
      hsecond.document.trans hfirst.document, fun m hm => hsecond.agrees m ?_⟩
    rcases hm with ha | ⟨r, hr, hu⟩
    · exact .inl (hfirst.agrees m (.inl ha))
    · rcases mem_append.mp hr with hr | hr
      · exact .inl (hfirst.agrees m (.inr ⟨r, hr, hu⟩))
      · exact .inr ⟨r, hr, hfirst.forest.under hu⟩

theorem Runs.settles {visit : Page σ → NodeId → Page σ} {order : List NodeId}
    (hvisit : ∀ s n, s.Coherent log → n < s.forest.nodes.size → (s.InDocument n ↔ live) →
      s.Visited log (visit s n) n ∧ (visit s n).Agrees n) (h : Runs visit s roots order t)
    (hs : s.Coherent log) (hroots : ∀ n ∈ roots, n < s.forest.nodes.size ∧ (s.InDocument n ↔ live)) :
    s.Settles log t roots := by
  induction h with
  | done => exact .refl hs
  | @next s t n stack _ _ ih =>
    obtain ⟨⟨hn, hlive⟩, hrest⟩ := forall_mem_cons.mp hroots
    obtain ⟨hv, hagrees⟩ := hvisit s n hs hn hlive
    have hin := fun {m} => inDocument_iff (m := m) hv.forest hv.document hs.wellFormed
    have hparent := fun c => hv.coherent.wellFormed.composedParent_iff (c := c) (n := n)
    have hbelow := ih hv.coherent (forall_mem_append.mpr ⟨fun c hc => ?_, fun r hr => ?_⟩)
    · refine ⟨hbelow.coherent, hv.forest.trans hbelow.forest, hbelow.document.trans hv.document,
        fun m hm => hbelow.agrees m ?_⟩
      by_cases hu : (visit s n).forest.Under n m
      · by_cases hne : m = n
        · exact .inl (hne ▸ hagrees)
        · obtain ⟨c, hc, hcm⟩ := hu.child hne
          exact .inr ⟨c, mem_append_left _ ((hparent c).mp hc), hcm⟩
      · rcases hm with ha | ⟨r, hr, hrm⟩
        · exact .inl (hv.agrees hs.toSound hu ha)
        · rcases mem_cons.mp hr with rfl | hr
          · exact absurd (hv.forest.under hrm) hu
          · exact .inr ⟨r, mem_append_right _ hr, hv.forest.under hrm⟩
    · have hc := (hparent c).mpr hc
      exact ⟨Forest.lt_size_of_composedParent hc,
        (hv.coherent.inDocument_child hc).trans ((hin hn).trans hlive)⟩
    · obtain ⟨hr, hlive⟩ := hrest r hr
      exact ⟨hv.forest.lt_size hr, (hin hr).trans hlive⟩

section

variable (h : s.Coherent log)

include h

variable (hn : n < s.forest.nodes.size)

include hn

theorem Coherent.connectNode (hlive : s.InDocument n ↔ True) :
    s.Visited log (s.connectNode n) n ∧ (s.connectNode n).Agrees n := by
  have hdone : ∀ {t}, s.Visited log t n → (∃ x, t.standing n = some x ∧ x.state = .connected) →
      t.Agrees n := by
    intro t hv ⟨x, hx, hs⟩
    have hl := (inDocument_iff hv.forest hv.document h.wellFormed hn).mpr (hlive.mpr trivial)
    refine ⟨fun y hy => ?_, fun _ _ _ _ _ => ⟨x, hx⟩⟩
    cases hx.symm.trans hy
    exact iff_of_true hs hl
  unfold Page.connectNode
  split
  next he =>
    rcases s.ensureInstance_cases n with ⟨id, ho, hm⟩ | ⟨ho, hm, hno⟩ | ⟨ho, tag, cls, c, ht, hr, hc, hm⟩
    · rw [hm]
      obtain ⟨i, hi, rfl⟩ := (h.owner_iff _ _).mp ho
      obtain ⟨hv, hx⟩ := h.connect hi
      exact ⟨hv, hdone hv hx⟩
    · rw [hm]
      refine ⟨.refl h n, ?_, fun _ tag cls ht hr => ?_⟩
      · rw [standing_of_owner?_none ho]
        nofun
      · obtain ⟨c, hc⟩ := h.registered tag cls hr
        rw [hno tag cls ht hr] at hc
        cases hc
    · rw [hm]
      have hmade := h.withInstance ho ht hc
      have hi := (instance?_withInstance h.numbered n cls c _).trans (if_pos rfl)
      obtain ⟨hv, hx⟩ := hmade.coherent.connect hi
      exact ⟨hmade.trans hv rfl, hdone (hmade.trans hv rfl) hx⟩
  next he =>
    have htag : ∀ tag, s.forest.tag? n ≠ some tag := fun tag ht =>
      he (Forest.isElement_iff.mpr ⟨tag, ht⟩)
    refine ⟨.refl h n, fun x hx => ?_, fun _ tag cls ht _ => absurd ht (htag tag)⟩
    obtain ⟨tag, ht⟩ := h.tag_of_standing hx
    exact absurd ht (htag tag)

theorem Coherent.disconnectNode (hlive : s.InDocument n ↔ False) :
    s.Visited log (s.disconnectNode n) n ∧ (s.disconnectNode n).Agrees n := by
  have hdead : ∀ {t}, s.Visited log t n → ¬ t.InDocument n := fun hv hl =>
    hlive.mp ((inDocument_iff hv.forest hv.document h.wellFormed hn).mp hl)
  unfold Page.disconnectNode
  split
  next id ho =>
    obtain ⟨i, hi, rfl⟩ := (h.owner_iff _ _).mp ho
    obtain ⟨hv, x, hx, hs⟩ := h.disconnect hi
    refine ⟨hv, fun y hy => ?_, fun hl => absurd hl (hdead hv)⟩
    cases hx.symm.trans hy
    exact iff_of_false hs (hdead hv)
  next ho =>
    have hv := Visited.refl h n
    refine ⟨hv, ?_, fun hl => absurd hl (hdead hv)⟩
    rw [standing_of_owner?_none ho]
    nofun

theorem Coherent.connectTree (hlive : s.InDocument n) : s.Settles log (s.connectTree n) [n] := by
  obtain ⟨order, hw⟩ := h.walked_connectTree (fun h => h.prunes) h.acyclic hn
  exact hw.runs.settles (fun s n hs hn hl => hs.connectNode hn hl) h
    (forall_mem_singleton.mpr ⟨hn, iff_true_intro hlive⟩)

theorem Coherent.disconnectTree (hlive : ¬ s.InDocument n) :
    s.Settles log (s.disconnectTree n) [n] := by
  obtain ⟨order, hw⟩ := h.walked_disconnectTree hn
  exact hw.runs.settles (fun s n hs hn hl => hs.disconnectNode hn hl) h
    (forall_mem_singleton.mpr ⟨hn, iff_false_intro hlive⟩)

end

end Page

end Componentry.Live
