import Componentry.Proofs.Live.Walk
import Componentry.Proofs.Live.Watched

/-!
# Lifecycle and tree

Between operations an element is connected exactly while it stands in the document. Whatever enters the
document is connected, with all that its template brings along; whatever leaves it is disconnected; and
authors are told of each in turn. This holds over every run in which nothing is hung under itself,
callbacks leave the tree alone and no template holds itself.
-/

namespace Componentry.Live

open Document List

variable {σ : Type}

namespace Page

variable {s t : Page σ} {id : InstanceId} {i : Instance σ} {n m parent child : NodeId}
  {log : σ → Diary} {rel : Forest → Forest → Prop} {c : Component σ} {op : Operation σ}

/-- A coherent page in which every element agrees with the tree. -/
structure Settled (log : σ → Diary) (s : Page σ) : Prop extends Coherent log s where
  /-- Every element agrees with the tree. -/
  agrees : ∀ n, s.Agrees n

/-! ### Changes that turn no element -/

theorem Coherent.undisturbed (h : s.Coherent log) (hu : Undisturbed s t)
    (hlog : log t.world = log s.world) : t.Coherent log := by
  have hsound := h.toSound.persists (hu.persists h.wellFormed) (h.toHoused.undisturbed hu)
    fun _ hn hlt => (hu.tree.fresh hn hlt).2
  refine { hsound with told := fun n => (h.told n).congr (hu.standing_eq n) ?_ }
  rw [calls, calls, hlog]

theorem Housed.lt_size_of_inDocument (h : s.Housed rel) (hn : s.InDocument n) :
    n < s.forest.nodes.size := hn.lt_size h.document_lt

variable (h : s.Settled log)

include h

theorem Settled.undisturbed (hu : Undisturbed s t)
    (hlog : log t.world = log s.world) : t.Settled log := by
  refine { h.toCoherent.undisturbed hu hlog with agrees := fun n => ?_ }
  have hin : t.InDocument n ↔ s.InDocument n := by
    unfold InDocument
    rw [hu.document]
    exact hu.tree.under_iff
  constructor
  · rw [hu.standing_eq, hin]
    exact (h.agrees n).connected_iff
  · intro hl
    have hl := hin.mp hl
    rw [hu.standing_eq, hu.registry, hu.tree.extends.tag_eq (h.lt_size_of_inDocument hl)]
    exact (h.agrees n).present hl

theorem Settled.run {α : Type} {callback : Authored σ α}
    (hc : Live.Respects Forest.KeepsTree callback) (hl : Writes log [] callback) :
    (s.run callback).1.Settled log :=
  h.undisturbed (.run s hc) ((hl s.forest s.world).trans (append_nil _))

theorem Settled.ripple (ht : Ripple s t) : t.Settled log := by
  rcases ht.undisturbed_or_call with ⟨hu, hw⟩ | ⟨id, i, method, event, hi, rfl⟩
  · exact h.undisturbed hu (congrArg log hw)
  · exact h.run ((h.gentle id i hi).call _ _ _) ((h.reports id i hi).call _ _ _)

/-- Making the instance of an element keeps all settled: what stands in the document has its instance
already. -/
theorem Settled.ensureInstance (n : NodeId) : (s.ensureInstance n).1.Settled log := by
  refine ensureInstance_keeps h fun {tag cls c} ho ht hr hc => ?_
  have hv := h.toCoherent.withInstance ho ht hc
  have hout : ¬ s.InDocument n := by
    intro hin
    obtain ⟨x, hx⟩ := (h.agrees n).present hin tag cls ht hr
    rw [standing_of_owner?_none ho] at hx
    cases hx
  refine { hv.coherent with agrees := fun m => ?_ }
  by_cases hm : m = n
  · subst hm
    have hi := (instance?_withInstance h.numbered m cls c _).trans (if_pos rfl)
    have hstanding := hv.coherent.standing_eq hi
    refine ⟨fun x hx => ?_, fun hin => absurd hin hout⟩
    cases hstanding.symm.trans hx
    exact iff_of_false nofun hout
  · constructor
    · rw [hv.apart m hm]
      exact (h.agrees m).connected_iff
    · rw [hv.apart m hm]
      exact (h.agrees m).present

omit h

/-! ### Moving nodes -/

theorem Sound.isConnected_iff (h : s.Sound log) (hn : n < s.forest.nodes.size) :
    s.forest.isConnected n = true ↔ s.InDocument n := by
  obtain ⟨⟨k, hk⟩, -⟩ := h.wellFormed.rootOf_spec n
  have hlt := h.wellFormed.ascend_lt_size hn hk
  unfold Forest.isConnected InDocument
  rw [decide_eq_true_iff]
  refine Iff.trans ⟨h.single _ hlt, fun he => ?_⟩ h.rootOf_eq_document
  rw [he]
  exact h.document

theorem Housed.inDocument_of_under (h : s.Housed rel) (hu : s.forest.Under n m) :
    s.InDocument m ↔ s.InDocument n := by
  refine ⟨fun hm => ?_, fun hn => hn.trans hu⟩
  rcases hm.total hu with hd | hd
  · exact hd
  · unfold InDocument
    rw [hd.eq_of_root h.document_root]
    exact .refl _ _

theorem Coherent.relinked (h : s.Coherent log) {g : Forest} (hg : g.WellFormed)
    (hs : s.forest.SameNodes g) : ({ s with forest := g } : Page σ).Coherent log := by
  have hsound := h.toSound.persists (.relinked s hg hs) (h.toHoused.relinked hg hs) fun n hn hlt =>
    absurd (Nat.lt_of_lt_of_eq hlt hs.size_eq) hn.not_gt
  exact { hsound with told := fun n => (h.told n).congr rfl rfl }

theorem Agrees.relinked (h : s.Agrees n) {g : Forest} (hs : s.forest.SameNodes g)
    (hin : ({ s with forest := g } : Page σ).InDocument n ↔ s.InDocument n) :
    ({ s with forest := g } : Page σ).Agrees n := by
  constructor
  · intro x hx
    rw [hin]
    exact h.connected_iff x hx
  · intro hl tag cls ht
    refine h.present (hin.mp hl) tag cls ?_
    rw [← ht, Forest.tag?, Forest.tag?, hs.kind_eq]

theorem Settled.remove (h : s.Settled log) (hn : (s.forest.kind n).isLoose) :
    (s.remove n).Settled log := by
  have hne : ∀ host, s.forest.kind n ≠ .shadow host := by
    intro host he
    rw [he] at hn
    cases hn
  have hlt := Forest.lt_size_of_isLoose hn
  have hsame := Forest.SameNodes.detach s.forest n
  have hcoherent := h.toCoherent.relinked (h.wellFormed.detach hne) hsame
  have hdiffer : s.forest.DifferAt (s.forest.detach n) n := by
    intro m hm
    rw [h.wellFormed.composedParent_detach hne, if_neg hm]
  have hdocument : n ≠ s.document := by
    rintro rfl
    rw [h.document] at hn
    cases hn
  have hout : ¬ ({ s with forest := s.forest.detach n } : Page σ).InDocument n := by
    refine not_inDocument_of_root ?_ hdocument
    exact (h.wellFormed.composedParent_detach hne n).trans (if_pos rfl)
  have hlt' := hsame.lt_size hlt
  have helsewhere : ∀ m, ¬ (s.forest.detach n).Under n m →
      ({ s with forest := s.forest.detach n } : Page σ).Agrees m := by
    intro m hm
    rw [hdiffer.under_iff] at hm
    exact (h.agrees m).relinked hsame (hdiffer.under_iff_of_not hm)
  unfold Page.remove
  dsimp only
  split
  · have hsettles := hcoherent.disconnectTree hlt' hout
    refine { hsettles.coherent with agrees := fun m => hsettles.agrees m ?_ }
    by_cases hm : (s.forest.detach n).Under n m
    · exact .inr ⟨n, mem_singleton_self n, hm⟩
    · exact .inl (helsewhere m hm)
  next hwas =>
    rw [h.toSound.isConnected_iff hlt] at hwas
    refine { hcoherent with agrees := fun m => ?_ }
    by_cases hm : (s.forest.detach n).Under n m
    · refine (h.agrees m).relinked hsame (iff_of_false ?_ ?_)
      · exact fun hin => hout ((hcoherent.inDocument_of_under hm).mp hin)
      · exact fun hin => hwas ((h.inDocument_of_under (hdiffer.under_iff.mp hm)).mp hin)
    · exact helsewhere m hm

theorem Coherent.follow (h : s.Coherent log) (was live : Bool) (hn : n < s.forest.nodes.size)
    (hin : s.InDocument n ↔ live = true) :
    s.Settles log (s.follow was live n) (if was || live then [n] else []) := by
  cases live with
  | true =>
    have he : s.follow was true n = s.connectTree n := by simp [Page.follow]
    rw [he, Bool.or_true]
    exact h.connectTree hn (hin.mpr rfl)
  | false =>
    cases was with
    | true => exact h.disconnectTree hn fun hd => absurd (hin.mp hd) nofun
    | false => exact .refl h

variable (h : s.Settled log)

include h

theorem Settled.append (hp : parent < s.forest.nodes.size)
    (hl : (s.forest.kind child).isLoose) (hn : ¬ s.forest.Under child parent) :
    (s.append parent child).Settled log := by
  have hmoved := h.wellFormed.append (Forest.lt_size_of_isLoose hl) hp (Kind.isInner_of_isLoose hl) hn
  have hcoherent := h.toCoherent.relinked hmoved.wellFormed hmoved.same
  have hp' := hmoved.same.lt_size hp
  have hparent : ∀ c ∈ s.forest.movedBy child,
      (s.forest.append parent child).composedParent c = some parent := fun c hc => by
    rw [hmoved.composedParent_eq, if_pos hc]
  have hlive := hcoherent.toSound.isConnected_iff hp'
  rw [append_eq]
  generalize (s.forest.append parent child).isConnected parent = live at hlive ⊢
  have hsettles := Settles.foldl (fun t c ht hc hin => ht.follow (n := c) (s.forest.isConnected c) live hc hin)
    (s.forest.movedBy child) hcoherent fun c hc => ⟨Forest.lt_size_of_composedParent (hparent c hc),
      (hcoherent.inDocument_child (hparent c hc)).trans hlive.symm⟩
  refine { hsettles.coherent with agrees := fun m => hsettles.agrees m ?_ }
  by_cases hm : ∃ c ∈ s.forest.movedBy child, (s.forest.append parent child).Under c m
  · obtain ⟨c, hc, hu⟩ := hm
    cases hturn : s.forest.isConnected c || live with
    | true => exact .inr ⟨c, mem_flatMap.mpr ⟨c, hc, by simp [hturn]⟩, hu⟩
    | false =>
      -- What was outside the document and stays there agrees with the tree as it is.
      obtain ⟨hwas, rfl⟩ := Bool.or_eq_false_iff.mp hturn
      have hclt := Nat.lt_of_lt_of_eq (Forest.lt_size_of_composedParent (hparent c hc))
        hmoved.same.size_eq
      refine .inl ((h.agrees m).relinked hmoved.same (iff_of_false (fun hin => ?_) fun hin => ?_))
      · rw [hcoherent.inDocument_of_under hu, hcoherent.inDocument_child (hparent c hc), ← hlive] at hin
        cases hin
      · rw [h.inDocument_of_under (hmoved.under_moved hc hu),
          ← h.toSound.isConnected_iff hclt, hwas] at hin
        cases hin
  · exact .inl ((h.agrees m).relinked hmoved.same (hmoved.under_iff fun c hc hu => hm ⟨c, hc, hu⟩))

/-! ### Defining components -/

/-- Taking up a component keeps a page coherent, and what stands outside the document agrees with the
tree as before. -/
theorem Settled.register (hc : c.Respects Forest.KeepsTree) (hl : c.Reports log)
    (ha : (s.register c).Acyclic) : (s.register c).Coherent log ∧
      ∀ n, ¬ (s.register c).InDocument n → (s.register c).Agrees n := by
  have hnext : ({ s with lastId := s.lastId + 1 } : Page σ).Settled log :=
    { h.toHoused.next, h with
      told := fun n => (h.told n).congr rfl rfl
      agrees := fun n => ⟨(h.agrees n).connected_iff, (h.agrees n).present⟩ }
  have hhoused := h.toHoused.register hc
  obtain ⟨t, -, hshare, hfresh, he, -⟩ := h.toStaffed.register hc
  have hs := hnext.undisturbed (.decorated hshare) (congrArg log hshare.world)
  rw [he] at ha hhoused ⊢
  have hcoherent : ({ t with
      registry := t.registry.insert c.description.tag (s.lastId + 1)
      classes := (s.lastId + 1, c) :: t.classes } : Page σ).Coherent log :=
    { hhoused, hs with
      registered := by
        intro tag cls hr
        rw [Dictionary.find?_insert] at hr
        split at hr
        · cases hr
          exact ⟨c, by simp [class?]⟩
        · exact (hs.registered tag cls hr).imp fun _ => class?_cons hfresh rfl
      reportsClasses := forall_mem_cons.mpr ⟨hl, hs.reportsClasses⟩
      acyclic := ha
      told := fun n => (hs.told n).congr rfl rfl }
  exact ⟨hcoherent, fun n hn => ⟨(hs.agrees n).connected_iff, fun hin => absurd hin hn⟩⟩

theorem Settled.define (hc : c.Respects Forest.KeepsTree) (hl : c.Reports log)
    (ha : Tag.isValid c.description.tag → s.mayDefine c.description →
      (s.register c).Acyclic) : (s.define c).1.Settled log := by
  refine define_keeps h fun hvalid hmay => ?_
  obtain ⟨hcoherent, hagrees⟩ := h.register hc hl (ha hvalid hmay)
  have hdocument := (Decorated.shareStyles { s with lastId := s.lastId + 1 }
    c.description.globalStyles).document
  rw [← hdocument]
  have hsettles := hcoherent.connectTree hcoherent.document_lt (.refl _ _)
  refine { hsettles.coherent with agrees := fun m => hsettles.agrees m ?_ }
  by_cases hin : (s.register c).InDocument m
  · exact .inr ⟨_, mem_singleton_self _, hin⟩
  · exact .inl (hagrees m hin)

/-! ### Runs -/

/-- What may be asked of a page. Documents and roots of hidden trees are neither appended nor taken out,
nothing is hung under itself, not even inside its own hidden tree, no component is taken up that lets a
template hold itself, and templates are not replaced. -/
def Allows (s : Page σ) : Operation σ → Prop
  | .define c =>
    Tag.isValid c.description.tag → s.mayDefine c.description → (s.register c).Acyclic
  | .append parent child => parent < s.forest.nodes.size ∧ (s.forest.kind child).isLoose ∧
    child ∉ s.forest.eventPath parent
  | .remove node => (s.forest.kind node).isLoose
  | .hotUpdate .. => False
  | _ => True

/-- Each operation may be asked of the page that those before it lead to. -/
def AllowsAll (s : Page σ) : List (Operation σ) → Prop
  | [] => True
  | op :: ops => s.Allows op ∧ (s.perform op).AllowsAll ops

/-- Every operation that may be asked keeps all settled, if the component it may define leaves the tree
alone and reports. -/
theorem Settled.perform (hop : s.Allows op)
    (hc : ∀ c, op = .define c → c.Respects Forest.KeepsTree ∧ c.Reports log) :
    (s.perform op).Settled log := by
  have hforest : ∀ {f}, s.forest.KeepsTree f → ({ s with forest := f } : Page σ).Settled log :=
    fun hf => h.undisturbed (.forest_only s hf) rfl
  refine perform_keeps (fun _ _ ht => ht.keeps_ripples (fun hr h => h.ripple hr) h)
    (fun hk => hforest (.create s.forest hk)) (fun _ => (hforest (.create s.forest rfl)).ensureInstance _)
    (fun _ _ => hforest (.updateAttributes ..)) (fun element g name old new => ?_)
    (fun element => adopt_keeps h ?_ element)
    (fun _ => h.undisturbed ⟨.of_eq rfl, .refl _, rfl⟩ rfl) ?_ ?_ ?_ ?_
  · have hs := hforest (.updateAttributes s.forest element g)
    refine tellAttribute_keeps hs (fun id i stage name hi => ?_) element name
    exact hs.run ((hs.gentle id i hi).attributeChanged _ _ _ _)
      ((hs.reports id i hi).attributeChanged _ _ _ _)
  · exact fun id i stage hi => h.run ((h.gentle id i hi).adopted _) ((h.reports id i hi).adopted _)
  · rintro c rfl
    obtain ⟨hg, hl⟩ := hc c rfl
    exact h.define hg hl hop
  · rintro parent child rfl
    obtain ⟨hp, hl, hn⟩ := hop
    exact h.append hp hl fun hu => hn (h.wellFormed.mem_eventPath hp hu)
  · rintro node rfl
    exact h.remove hop
  · rintro sourceId template styles globalStyles rfl
    exact hop.elim

theorem Settled.performAll (ops : List (Operation σ)) (hops : s.AllowsAll ops)
    (hc : ∀ c, .define c ∈ ops → c.Respects Forest.KeepsTree ∧ c.Reports log) :
    (s.performAll ops).Settled log := by
  induction ops generalizing s with
  | nil => exact h
  | cons op ops ih =>
    refine ih (h.perform hops.1 fun c he => hc c ?_) hops.2 fun c hm => hc c (.tail _ hm)
    exact he ▸ (.head _)

omit h

theorem Settled.start {world : σ} (hw : log world = []) : (Page.start world).Settled log := by
  have hstanding : ∀ n, (Page.start world).standing n = none := fun _ => rfl
  have hcalls : ∀ n, (Page.start world).calls log n = [] := fun n => by
    rw [calls, show (Page.start world).world = world from rfl, hw]
    rfl
  exact { Housed.start world with
    single := fun _ hn _ => Nat.lt_one_iff.mp hn
    registered := fun _ _ hr => by cases hr
    reports := fun _ _ hi => absurd hi instance?_start_ne
    reportsClasses := fun x hx => absurd hx not_mem_nil
    acyclic := acyclic_of_lt fun x hx => absurd hx not_mem_nil
    told := fun n =>
      { alternates := by
          rw [hcalls]
          exact ⟨.nil, (Option.some_ne_none false).symm⟩
        last_iff := by simp [hcalls, hstanding]
        settled := by simp [hstanding] }
    agrees := fun n =>
      { connected_iff := by simp [hstanding]
        present := fun _ tag cls ht => by simp [Forest.tag?, kind_start] at ht } }

/-! ### The same with watched authors -/

theorem Watches.allows {t : Page (σ × Diary)} (h : Watches s t) (hop : s.Allows op) :
    t.Allows op.watched := by
  obtain ⟨diary, rfl⟩ := h
  cases op with
  | define c =>
    intro hvalid hmay
    rw [register_watched]
    rw [mayDefine_watched] at hmay
    exact (acyclic_iff ⟨diary, rfl⟩).mpr (hop hvalid hmay)
  | _ => exact hop

theorem Watches.allowsAll {t : Page (σ × Diary)} (h : Watches s t) (ops : List (Operation σ))
    (hops : s.AllowsAll ops) : t.AllowsAll (ops.map Operation.watched) := by
  induction ops generalizing s t with
  | nil => exact hops
  | cons op ops ih => exact ⟨h.allows hops.1, ih (h.perform op) hops.2⟩

/-- What the authors are told in a run from an empty document. -/
def diary (world : σ) (ops : List (Operation σ)) : Diary :=
  ((Page.start (world, [])).performAll (ops.map Operation.watched)).world.2

theorem performAll_watched (world : σ) (ops : List (Operation σ)) :
    (Page.start (world, [])).performAll (ops.map Operation.watched) =
      ((Page.start world).performAll ops).watched (diary world ops) := by
  have hstart : Watches (Page.start world) (Page.start (world, [])) := ⟨[], rfl⟩
  obtain ⟨d, hd⟩ := hstart.performAll ops
  have hdiary : diary world ops = d := congrArg (fun t => t.world.2) hd
  rw [hdiary, hd]

theorem settled_watched (world : σ) {ops : List (Operation σ)}
    (hgentle : ∀ c, .define c ∈ ops → c.Respects Forest.KeepsTree)
    (hallowed : (Page.start world).AllowsAll ops) :
    (((Page.start world).performAll ops).watched (diary world ops)).Settled Prod.snd := by
  have hstart : Watches (Page.start world) (Page.start (world, [])) := ⟨[], rfl⟩
  rw [← performAll_watched]
  refine Settled.performAll (.start rfl) _ (hstart.allowsAll ops hallowed) fun c hc => ?_
  obtain ⟨op, hop, he⟩ := mem_map.mp hc
  cases op with
  | define c' =>
    cases he
    exact ⟨(hgentle c' hop).watched, c'.watched_reports⟩
  | _ => cases he

/-! ### Lifecycle and tree -/

/-- An instance is connected exactly if the document is the root of its element, and no connection is
under way. -/
theorem Settled.connected_iff (h : s.Settled log) (hi : s.instance? id = some i) :
    i.state ≠ .connecting ∧ (i.state = .connected ↔ s.forest.rootOf i.element = s.document) := by
  have hs := h.standing_eq hi
  have hsettled := (h.told i.element).settled
  rw [hs] at hsettled
  rw [h.rootOf_eq_document]
  exact ⟨fun he => hsettled (congrArg some he), (h.agrees _).connected_iff _ hs⟩

theorem Settled.owned (h : s.Settled log) (hn : s.forest.rootOf n = s.document) {tag : String}
    {cls : ClassId} (ht : s.forest.tag? n = some tag) (hr : s.registry.find? tag = some cls) :
    ∃ id, s.owner? n = some id := by
  obtain ⟨x, hx⟩ := (h.agrees n).present (h.rootOf_eq_document.mp hn) tag cls ht hr
  cases ho : s.owner? n with
  | some id => exact ⟨id, rfl⟩
  | none =>
    rw [standing_of_owner?_none ho] at hx
    cases hx

/-- The author of an instance was told in turn that its element went live and that it is no longer live,
and last that it went live exactly if it is connected. -/
theorem Settled.alternates (h : s.Settled log) (hi : s.instance? id = some i) :
    Alternates (s.calls log i.element) ∧
      ((s.calls log i.element).getLast? = some true ↔ i.state = .connected) := by
  refine ⟨(h.told _).alternates, (h.told _).last_iff.trans ?_⟩
  rw [h.standing_eq hi]
  exact Option.some_inj

/-- Lifecycle and tree agree over every run in which callbacks leave the tree alone, no template holds
itself and nothing is hung under itself. Between operations an instance is connected exactly while the
document is the root of its element, and never on its way. Every element in the document whose tag has
a component has an instance, and elements and instances belong to each other. What the authors are
told, watched without a change to anything else, alternates for each element: it goes live first, and
last exactly if it is connected. -/
theorem lifecycle_agrees_with_tree (world : σ) (ops : List (Operation σ))
    (hgentle : ∀ c, .define c ∈ ops → c.Respects Forest.KeepsTree)
    (hallowed : (Page.start world).AllowsAll ops) : let s := (Page.start world).performAll ops
    (∀ id i, s.instance? id = some i → i.state ≠ .connecting ∧
      (i.state = .connected ↔ s.forest.rootOf i.element = s.document)) ∧
    (∀ n tag cls, s.forest.rootOf n = s.document → s.forest.tag? n = some tag →
      s.registry.find? tag = some cls → ∃ id, s.owner? n = some id) ∧
    (∀ n id, s.owner? n = some id ↔ ∃ i, s.instance? id = some i ∧ i.element = n) ∧
    (Page.start (world, [])).performAll (ops.map Operation.watched) = s.watched (diary world ops) ∧
    (∀ id i, s.instance? id = some i → Alternates ((diary world ops).of i.element) ∧
      (((diary world ops).of i.element).getLast? = some true ↔ i.state = .connected)) := by
  intro s
  have h := settled_watched world hgentle hallowed
  have hwatched : ∀ id i, s.instance? id = some i →
      (s.watched (diary world ops)).instance? id = some i.watched := by
    intro id i hi
    rw [instance?_watched, hi]
    rfl
  refine ⟨?_, ?_, ?_, performAll_watched world ops, ?_⟩
  · exact fun id i hi => h.connected_iff (hwatched id i hi)
  · exact fun n tag cls hn ht hr => h.owned hn ht hr
  · intro n id
    refine (h.owner_iff n id).trans ?_
    rw [instance?_watched]
    constructor
    · rintro ⟨j, hj, he⟩
      obtain ⟨i, hi, rfl⟩ := Option.map_eq_some_iff.mp hj
      exact ⟨i, hi, he⟩
    · rintro ⟨i, hi, he⟩
      exact ⟨i.watched, Option.map_eq_some_iff.mpr ⟨i, hi, rfl⟩, he⟩
  · exact fun id i hi => h.alternates (hwatched id i hi)

/-- The frame is hung up, taken down and hung up again, with a picture beside it that comes out of a
fragment. -/
def hung : List (Operation Unit) :=
  [.define picture, .define frame, .createElement "x-frame", .append 0 1, .remove 1, .createFragment,
    .createElement "x-picture", .append 4 1, .append 4 5, .append 0 4]

/-- The picture in the frame goes where the frame goes: both go live, are no longer live and go live
again, the frame before the picture it holds. -/
theorem lifecycle_agrees_with_tree_hung :
    (∀ c, .define c ∈ hung → c.Respects Forest.KeepsTree) ∧ (Page.start ()).AllowsAll hung ∧
    diary () hung = [(1, true), (3, true), (1, false), (3, false), (1, true), (3, true), (5, true)] ∧
    ∀ id i, ((Page.start ()).performAll hung).instance? id = some i →
      (i.state = .connected ↔ ((Page.start ()).performAll hung).forest.rootOf i.element =
        ((Page.start ()).performAll hung).document) ∧
      Alternates ((diary () hung).of i.element) := by
  have hgentle : ∀ c, .define c ∈ hung → c.Respects Forest.KeepsTree := by
    intro c hc
    simp only [hung, mem_cons, not_mem_nil, or_false, reduceCtorEq,
      Operation.define.injEq] at hc
    rcases hc with rfl | rfl
    · exact Component.respects_still .refl _
    · exact Component.respects_still .refl _
  have hallowed : (Page.start ()).AllowsAll hung := by
    refine ⟨fun _ _ => acyclic_of_lt ?_, fun _ _ => acyclic_of_lt ?_, trivial, ?_, ?_, trivial, trivial,
      ?_, ?_, ?_, trivial⟩
    all_goals try unfold Allows
    all_goals decide +kernel
  obtain ⟨hstate, -, -, -, htold⟩ := lifecycle_agrees_with_tree () hung hgentle hallowed
  exact ⟨hgentle, hallowed, by decide +kernel, fun id i hi => ⟨(hstate id i hi).2, (htold id i hi).1⟩⟩

end Page

end Componentry.Live
