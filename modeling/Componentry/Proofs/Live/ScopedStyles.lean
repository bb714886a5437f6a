import Componentry.Proofs.Live.Redressing

/-!
# Scoped styles over runs

A connected instance without a hidden tree wears the sheet of its component's current styles, in
every page of every run. It wears nothing else exactly as long as nothing that was there before
enters the document with another sheet on: leaving takes no sheet off, styles may be replaced
meanwhile, and only a hot update of a connected instance takes the old sheet off.
-/

namespace Componentry.Live

open Document List

variable {σ : Type}

namespace Page

variable {s t : Page σ} {id : InstanceId} {i : Instance σ} {c : Component σ} {x : Sheet}

/-- The sheet of the current styles of an instance's component; none if they are absent or blank. -/
def ownSheets (s : Page σ) (i : Instance σ) : List Sheet :=
  match (s.class? i.cls).bind fun c => c.description.styles with
  | some css => if Text.isBlankText css then [] else [(s.sheets.sheet css).2]
  | none => []

/-- The component of an instance keeps no content in a hidden tree. -/
def Plain (s : Page σ) (i : Instance σ) : Prop :=
  ∃ c, s.class? i.cls = some c ∧ c.description.shadow = false

/-- Connected instances without a hidden tree wear the sheet of their current styles and no other. -/
def Tidy (s : Page σ) : Prop :=
  ∀ id i, s.instance? id = some i → s.Plain i → i.state = .connected →
    s.forest.sheets i.element = s.ownSheets i

/-- Instances without a hidden tree that were there and enter the document wear no sheet but that of
their current styles. -/
def EntersClean (s t : Page σ) : Prop :=
  ∀ id i j, s.instance? id = some i → s.Plain i → i.state ≠ .connected →
    t.instance? id = some j → j.state = .connected →
    ∀ x ∈ s.forest.sheets i.element, x ∈ t.ownSheets j

/-! ### Sheets and their digests -/

theorem eq_of_mem_ownSheets {y : Sheet} (hx : x ∈ s.ownSheets i) (hy : y ∈ s.ownSheets i) : y = x := by
  unfold ownSheets at hx hy
  generalize ((s.class? i.cls).bind fun c => c.description.styles) = styles at hx hy
  cases styles with
  | none => cases hx
  | some css =>
    dsimp only at hx hy
    split at hx
    · cases hx
    next hblank =>
      rw [if_neg hblank] at hy
      rw [mem_singleton.mp hx, mem_singleton.mp hy]

theorem digest_ownSheets (hc : s.class? i.cls = some c) :
    (s.ownSheets i).map (·.digest) = wanted c.description.styles := by
  unfold ownSheets
  rw [hc, Option.bind_some]
  cases c.description.styles with
  | none => rfl
  | some css =>
    unfold wanted
    dsimp only
    split
    · rfl
    · rw [map_singleton, (s.sheets.sheet_spec _).1]

theorem mem_ownSheets_iff (h : s.Fitted) (hc : s.class? i.cls = some c) (hx : x ∈ s.sheets.sheets) :
    x ∈ s.ownSheets i ↔ x.digest ∈ wanted c.description.styles := by
  rw [← digest_ownSheets hc]
  refine ⟨mem_map_of_mem, fun hd => ?_⟩
  obtain ⟨y, hy, he⟩ := mem_map.mp hd
  unfold ownSheets at hy ⊢
  split at hy
  next css hcss =>
    split at hy
    · cases hy
    next hblank =>
      rw [mem_singleton.mp hy, (s.sheets.sheet_spec _).1] at he
      rw [if_neg hblank, SheetCache.sheet_eq_of_mem h.supplied.keyed hx he.symm]
      exact mem_singleton_self x
  · cases hy

theorem sheets_eq_ownSheets_iff (h : s.Fitted) (hi : s.instance? id = some i)
    (hc : s.class? i.cls = some c) :
    s.forest.sheets i.element = s.ownSheets i ↔ s.forest.worn i.element = wanted c.description.styles := by
  rw [← digest_ownSheets hc]
  refine ⟨congrArg _, fun he => ?_⟩
  have hstock := h.supplied.mem_stock i.element (h.element id i hi)
  have hmem : ∀ x ∈ s.forest.sheets i.element, x ∈ s.ownSheets i := by
    intro x hx
    rw [mem_ownSheets_iff h hc (hstock x hx), ← digest_ownSheets hc, ← he]
    exact mem_map_of_mem hx
  have hlength : (s.forest.sheets i.element).length = (s.ownSheets i).length := by
    simpa [Forest.worn] using congrArg length he
  have hone : (s.ownSheets i).length ≤ 1 := by
    unfold ownSheets
    split
    · split <;> simp
    · simp
  -- there is at most one sheet on each side
  generalize s.forest.sheets i.element = worn at hmem hlength
  generalize s.ownSheets i = own at hmem hlength hone
  cases own with
  | nil => exact length_eq_zero_iff.mp hlength
  | cons b own =>
    obtain rfl : own = [] := length_eq_zero_iff.mp (Nat.le_zero.mp (Nat.le_of_succ_le_succ hone))
    obtain ⟨a, rfl⟩ := length_eq_one_iff.mp hlength
    rw [mem_singleton.mp (hmem a (.head _))]

/-! ### Instances and their outfits -/

theorem outfit?_of_plain (hi : s.instance? id = some i) (hp : s.Plain i) :
    ∃ c, s.class? i.cls = some c ∧ s.outfit? id = some (s.outfit i c) := by
  obtain ⟨c, hc, hplain⟩ := hp
  refine ⟨c, hc, ?_⟩
  rw [outfit?_of_instance hi hc, hplain]
  rfl

theorem exists_of_outfit? {o : Outfit} (ho : s.outfit? id = some o) :
    ∃ i c, s.instance? id = some i ∧ s.class? i.cls = some c ∧ s.Plain i ∧ o = s.outfit i c := by
  obtain ⟨i, hi, h⟩ := Option.bind_eq_some_iff.mp ho
  obtain ⟨c, hc, h⟩ := Option.bind_eq_some_iff.mp h
  split at h
  · cases h
  next hplain => exact ⟨i, c, hi, hc, ⟨c, hc, Bool.eq_false_iff.mpr hplain⟩, (Option.some.inj h).symm⟩

variable (h : s.Fitted)

include h

theorem Fitted.tidy_iff : s.Tidy ↔ ∀ id, ∀ o ∈ s.outfit? id, o.Tidy := by
  constructor
  · intro ht id o ho hlive
    obtain ⟨i, c, hi, hc, hplain, rfl⟩ := exists_of_outfit? ho
    exact (sheets_eq_ownSheets_iff h hi hc).mp (ht id i hi hplain (of_decide_eq_true hlive))
  · intro ht id i hi hplain hstate
    obtain ⟨c, hc, ho⟩ := outfit?_of_plain hi hplain
    exact (sheets_eq_ownSheets_iff h hi hc).mpr (ht id _ ho (decide_eq_true hstate))

theorem Turns.entersClean_iff (ht : Turns Outfit.Turn s t) : s.EntersClean t ↔
      ∀ id, ∀ o ∈ s.outfit? id, ∀ o' ∈ t.outfit? id, Outfit.EntersClean o o' := by
  have hstock : ∀ {id i}, s.instance? id = some i → ∀ x ∈ s.forest.sheets i.element,
      x ∈ t.sheets.sheets := fun hi x hx =>
    ht.stock x (h.supplied.mem_stock _ (h.element _ _ hi) x hx)
  constructor
  · intro hclean id o ho o' ho' hlive hlive' d hd
    obtain ⟨i, c, hi, hc, hplain, rfl⟩ := exists_of_outfit? ho
    obtain ⟨j, c', hj, hc', -, rfl⟩ := exists_of_outfit? ho'
    obtain ⟨x, hx, rfl⟩ := mem_map.mp hd
    have hown := hclean id i j hi hplain (of_decide_eq_false hlive) hj (of_decide_eq_true hlive') x hx
    exact (mem_ownSheets_iff ht.fitted hc' (hstock hi x hx)).mp hown
  · intro hclean id i j hi hplain hstate hj hstate' x hx
    obtain ⟨c, hc, ho⟩ := outfit?_of_plain hi hplain
    obtain ⟨o', ho'⟩ := Outfit.Turn.isSome (ho ▸ ht.turn id)
    have houtfits := hclean id _ ho o' ho'
    obtain ⟨j', c', hj', hc', -, rfl⟩ := exists_of_outfit? ho'
    cases hj.symm.trans hj'
    rw [mem_ownSheets_iff ht.fitted hc' (hstock hi x hx)]
    exact houtfits (decide_eq_false hstate) (decide_eq_true hstate') _ (mem_map_of_mem hx)

/-! ### Runs -/

variable (hs : ∀ id, ∀ o ∈ s.outfit? id, o.Sound)

include hs

theorem Fitted.sound_performAll
    (ops : List (Operation σ)) (hc : ∀ c, .define c ∈ ops → c.Respects Forest.KeepsSheets) :
    (s.performAll ops).Fitted ∧ ∀ id, ∀ o ∈ (s.performAll ops).outfit? id, o.Sound := by
  refine foldlRecOn (motive := fun t : Page σ => t.Fitted ∧ ∀ id, ∀ o ∈ t.outfit? id, o.Sound)
    ops Page.perform ⟨h, hs⟩ fun t ht op hop => ?_
  have hturns := ht.1.perform op fun c he => hc c (he ▸ hop)
  exact ⟨hturns.fitted, fun id => (hturns.turn id).sound (ht.2 id)⟩

theorem Fitted.tidy_perform_iff
    (ht : s.Tidy) {op : Operation σ} (hc : ∀ c, op = .define c → c.Respects Forest.KeepsSheets) :
    (s.perform op).Tidy ↔ s.EntersClean (s.perform op) := by
  have hop := h.perform op hc
  rw [hop.fitted.tidy_iff, hop.entersClean_iff h]
  exact forall_congr' fun id => (hop.turn id).tidy_iff (hs id) (h.tidy_iff.mp ht id)

theorem Fitted.tidy_performAll_iff
    (ht : s.Tidy) (ops : List (Operation σ))
    (hc : ∀ c, .define c ∈ ops → c.Respects Forest.KeepsSheets) :
    (∀ n ≤ ops.length, (s.performAll (ops.take n)).Tidy) ↔
      ∀ n < ops.length, (s.performAll (ops.take n)).EntersClean (s.performAll (ops.take (n + 1))) := by
  induction ops generalizing s with
  | nil => exact ⟨nofun, fun _ n _ => by rwa [take_nil]⟩
  | cons op ops ih =>
    have hfirst : ∀ c, op = .define c → c.Respects Forest.KeepsSheets :=
      fun c he => hc c (he ▸ (.head _))
    have hop := h.perform op hfirst
    have hstep := h.tidy_perform_iff hs ht hfirst
    have hrest : (s.perform op).Tidy → _ := fun ht' =>
      ih hop.fitted (fun id => (hop.turn id).sound (hs id)) ht'
        fun c hm => hc c (.tail _ hm)
    constructor
    · intro hall
      have ht' : (s.perform op).Tidy := hall 1 (Nat.le_add_left ..)
      rintro (_ | n) hn
      · exact hstep.mp ht'
      · exact (hrest ht').mp (fun m hm => hall (m + 1) (Nat.succ_le_succ hm)) n
          (Nat.lt_of_succ_lt_succ hn)
    · intro hall
      have ht' : (s.perform op).Tidy := hstep.mpr (hall 0 (Nat.succ_pos _))
      rintro (_ | n) hn
      · exact ht
      · exact (hrest ht').mpr (fun m hm => hall (m + 1) (Nat.succ_lt_succ hm)) n
          (Nat.le_of_succ_le_succ hn)

omit hs

omit h

/-- Over every run in which callbacks leave the sheets of elements alone: connected instances without
a hidden tree wear the sheet of their current styles, none twice, and they wear no other all along
exactly if no instance that was there enters the document with another sheet on. -/
theorem scoped_styles_current (world : σ) (ops : List (Operation σ))
    (hquiet : ∀ c, .define c ∈ ops → c.Respects Forest.KeepsSheets) :
    let page (n : Nat) := (Page.start world).performAll (ops.take n)
    (∀ n ≤ ops.length, ∀ id i, (page n).instance? id = some i → (page n).Plain i →
      i.state = .connected →
      (page n).ownSheets i ⊆ (page n).forest.sheets i.element ∧
        ((page n).forest.sheets i.element).Nodup) ∧
    ((∀ n ≤ ops.length, (page n).Tidy) ↔
      ∀ n < ops.length, (page n).EntersClean (page (n + 1))) := by
  intro page
  have hstart := Fitted.start world
  have hsound : ∀ id, ∀ o ∈ (Page.start world).outfit? id, o.Sound := nofun
  refine ⟨fun n _ id i hi hplain hstate => ?_, ?_⟩
  · have hquiet' : ∀ c, .define c ∈ ops.take n → c.Respects Forest.KeepsSheets :=
      fun c hc => hquiet c (mem_of_mem_take hc)
    obtain ⟨hfitted, hsound⟩ := hstart.sound_performAll hsound _ hquiet'
    obtain ⟨c, hc, ho⟩ := outfit?_of_plain hi hplain
    have ho' := hsound id _ ho
    refine ⟨fun x hx => ?_, Nodup.of_map _ ho'.nodup⟩
    have hd : x.digest ∈ wanted c.description.styles := by
      rw [← digest_ownSheets hc]
      exact mem_map_of_mem hx
    obtain ⟨y, hy, he⟩ := mem_map.mp (ho'.current (decide_eq_true hstate) _ hd).2
    have hown : y ∈ (page n).ownSheets i :=
      (mem_ownSheets_iff hfitted hc (hfitted.supplied.mem_stock _ (hfitted.element _ _ hi) y hy)).mpr
        (he ▸ hd)
    exact eq_of_mem_ownSheets hx hown ▸ hy
  · exact hstart.tidy_performAll_iff hsound (by rintro id i hi; cases hi) ops hquiet

def card : Component Unit := .still
  { tag := "x-card", styles := some "p \x7b color: red; \x7d", sourceId := some "/card.sfc" }

/-- A card is hung up, its styles are replaced while it hangs there, and it is taken down and hung up
again. -/
def recoloured : List (Operation Unit) :=
  [.define card, .createElement "x-card", .append 0 1,
    .hotUpdate "/card.sfc" "" (some "p \x7b color: blue; \x7d") none, .remove 1, .append 0 1]

/-- It wears the new sheet only, all along. -/
theorem scoped_styles_current_recoloured :
    (∀ c, .define c ∈ recoloured → c.Respects Forest.KeepsSheets) ∧
    (∀ n ≤ recoloured.length, ((Page.start ()).performAll (recoloured.take n)).Tidy) ∧
    (((Page.start ()).performAll recoloured).forest.sheets 1).map (·.css) =
      ["p \x7b color: blue; \x7d"] := by
  have hquiet : ∀ c, .define c ∈ recoloured → c.Respects Forest.KeepsSheets := by
    intro c hc
    simp only [recoloured, mem_cons, not_mem_nil, or_false, reduceCtorEq,
      Operation.define.injEq] at hc
    exact hc ▸ Component.respects_still .refl _
  refine ⟨hquiet, (scoped_styles_current () recoloured hquiet).2.mpr fun n hn => ?_, by decide +kernel⟩
  -- what is not connected before a step wears nothing, or what is asked for after it
  have hclean : ∀ n < recoloured.length, let s := (Page.start ()).performAll (recoloured.take n)
      let t := (Page.start ()).performAll (recoloured.take (n + 1))
      (s.instances.all fun x => x.2.state = .connected || t.instances.all fun y =>
        (s.forest.sheets x.2.element).all fun z => (t.ownSheets y.2).contains z) = true := by
    decide +kernel
  intro id i j hi _ hstate hj _ z hz
  have hi' := all_eq_true.mp (hclean n hn) _ (mem_of_instance? hi)
  simp only [hstate, decide_false, Bool.false_or] at hi'
  have hj' := all_eq_true.mp (all_eq_true.mp hi' _ (mem_of_instance? hj)) z hz
  exact contains_iff_mem.mp hj'

/-- A card is hung up and taken down, and its styles are replaced before it is hung up again. -/
def recolouredAway : List (Operation Unit) :=
  [.define card, .createElement "x-card", .append 0 1, .remove 1,
    .hotUpdate "/card.sfc" "" (some "p \x7b color: blue; \x7d") none, .append 0 1]

/-- It wears the old sheet beside the new one. -/
theorem scoped_styles_stale : let s := (Page.start ()).performAll recolouredAway
    ¬ s.Tidy ∧
      (s.forest.sheets 1).map (·.css) =
        ["p \x7b color: red; \x7d", "p \x7b color: blue; \x7d"] ∧
      (s.instanceOf? 1).map (fun i => (i.state, (s.ownSheets i).map (·.css))) =
        some (.connected, ["p \x7b color: blue; \x7d"]) := by
  intro s
  refine ⟨fun ht => ?_, by decide +kernel, by decide +kernel⟩
  have hcard : ∀ x ∈ s.instances, x.2.state = .connected ∧
      (s.class? x.2.cls).map (fun c => c.description.shadow) = some false ∧
      s.forest.sheets x.2.element ≠ s.ownSheets x.2 := by decide +kernel
  obtain ⟨i, hi⟩ : ∃ i, s.instance? 2 = some i := Option.isSome_iff_exists.mp (by decide +kernel)
  obtain ⟨hstate, hplain, hne⟩ := hcard _ (mem_of_instance? hi)
  exact hne (ht 2 i hi (Option.map_eq_some_iff.mp hplain) hstate)

end Page

end Componentry.Live
