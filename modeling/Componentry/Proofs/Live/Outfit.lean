import Componentry.Proofs.Document.Sheets

/-!
# What an instance has on

The sheets of an instance without a hidden tree, followed apart from the page: an outfit changes when
its instance enters or leaves the document and when the styles of its component do. Entering puts the
current sheet on and takes nothing off; only a renewal takes the instance's own sheet off before.

An outfit that is live always holds the current sheet. It holds nothing else as long as whatever
enters the document had nothing else on.
-/

namespace Componentry.Live

open Document List
open Document.Forest (wear)

/-- What bears on the sheets of an instance. -/
structure Outfit where
  /-- The instance is connected. -/
  live : Bool
  mounted : Bool
  /-- The digest it holds for its own. -/
  own : Option String
  /-- The digests that its element wears. -/
  worn : List String
  /-- The styles of its component. -/
  css : Option String
deriving DecidableEq, Repr

def wanted : Option String → List String
  | some css => if Text.isBlankText css then [] else [Digest.ofText css]
  | none => []

/-- Puts on what styles ask for: the digest held for the own, and what is worn. -/
def putOn : Option String → Option String × List String → Option String × List String
  | some css, p =>
    if Text.isBlankText css then (none, p.2) else (some (Digest.ofText css), wear (Digest.ofText css) p.2)
  | none, p => p

theorem putOn_attach (c : SheetCache) {f : Forest} {n : NodeId} (hn : n < f.nodes.size)
    (own : Option String) (css : String) :
    ((c.attach f n css).2.2, (c.attach f n css).2.1.worn n) = putOn (some css) (own, f.worn n) := by
  unfold SheetCache.attach putOn
  dsimp only
  split
  · rfl
  · rw [← (c.sheet_spec css).1, ← Forest.worn_adoptSheet hn]

def takeOff (p : Option String × List String) : Option String × List String :=
  (none, match p.1 with
    | some digest => p.2.filter (· != digest)
    | none => p.2)

namespace Outfit

variable (o : Outfit)

/-- The digest held for the own, and what is worn. -/
def clothes : Option String × List String := (o.own, o.worn)

/-- The outfit of an instance that was just made. -/
def new (css : Option String) : Outfit := ⟨false, false, none, [], css⟩

def enter : Outfit :=
  ⟨true, true, (putOn o.css o.clothes).1, (putOn o.css o.clothes).2, o.css⟩

/-- The outfit once the instance has left. -/
def leave : Outfit := { o with live := false }

def restyle (css : Option String) : Outfit := { o with css }

/-- The outfit once its content was made anew. -/
def renew : Outfit :=
  ⟨true, true, (putOn o.css (takeOff o.clothes)).1, (putOn o.css (takeOff o.clothes)).2, o.css⟩

/-! ### Turns -/

/-- What connecting does: instances are made, and instances enter. -/
inductive Enters : Option Outfit → Option Outfit → Prop where
  | stay (o : Option Outfit) : Enters o o
  /-- An instance enters that was not live. -/
  | enter {o : Outfit} (h : o.live = false) : Enters (some o) (some o.enter)
  | made (css : Option String) : Enters none (some (new css))
  /-- An instance is made and enters. -/
  | madeLive (css : Option String) : Enters none (some (new css).enter)

variable {a b c : Option Outfit} {o : Outfit}

theorem Enters.trans (hab : Enters a b) (hbc : Enters b c) : Enters a c := by
  cases hbc with
  | stay => exact hab
  | enter h =>
    cases hab with
    | stay => exact .enter h
    | enter => cases h
    | made css => exact .madeLive css
    | madeLive => cases h
  | made css =>
    cases hab
    exact .made css
  | madeLive css =>
    cases hab
    exact .madeLive css

/-- What disconnecting does. -/
inductive Leaves : Option Outfit → Option Outfit → Prop where
  | stay (o : Option Outfit) : Leaves o o
  /-- An instance leaves that was live. -/
  | leave {o : Outfit} (h : o.live = true) : Leaves (some o) (some o.leave)

theorem Leaves.trans (hab : Leaves a b) (hbc : Leaves b c) : Leaves a c := by
  cases hbc with
  | stay => exact hab
  | leave h =>
    cases hab with
    | stay => exact .leave h
    | leave => cases h

/-- What an operation does. -/
inductive Turn : Option Outfit → Option Outfit → Prop where
  /-- Instances are made or enter. -/
  | enters {a b : Option Outfit} (h : Enters a b) : Turn a b
  | leaves {a b : Option Outfit} (h : Leaves a b) : Turn a b
  /-- The styles change of what is not live. -/
  | restyle {o : Outfit} (h : o.live = false) (css : Option String) :
    Turn (some o) (some (o.restyle css))
  /-- The styles change of what is live, and its content is made anew. -/
  | renew {o : Outfit} (h : o.live = true) (css : Option String) :
    Turn (some o) (some (o.restyle css).renew)

theorem Turn.isSome (h : Turn (some o) b) : ∃ o', b = some o' := by
  cases h with
  | enters h =>
    cases h with
    | stay | enter => exact ⟨_, rfl⟩
  | leaves h =>
    cases h with
    | stay | leave => exact ⟨_, rfl⟩
  | restyle | renew => exact ⟨_, rfl⟩

/-! ### What every outfit keeps -/

/-- Nothing is worn twice, and what is live wears what its styles ask for and holds it for its own. -/
structure Sound (o : Outfit) : Prop where
  nodup : o.worn.Nodup
  /-- The sheet that is asked for is worn, and held for the own. -/
  current : o.live = true → ∀ d ∈ wanted o.css, o.own = some d ∧ d ∈ o.worn

variable {p : Option String × List String} {css : Option String}

theorem nodup_putOn (css : Option String) (h : p.2.Nodup) : (putOn css p).2.Nodup := by
  unfold putOn
  split
  · split
    · exact h
    · unfold wear
      split
      · exact h
      next hnot => exact concat_eq_append ▸ h.concat hnot
  · exact h

theorem mem_putOn {d : String} (h : d ∈ wanted css) (p : Option String × List String) :
    (putOn css p).1 = some d ∧ d ∈ (putOn css p).2 := by
  cases css with
  | none => cases h
  | some css =>
    by_cases hblank : Text.isBlankText css = true
    · simp [wanted, hblank] at h
    · simp only [wanted, if_neg hblank, mem_singleton] at h
      subst h
      simp only [putOn, if_neg hblank, true_and]
      unfold wear
      split
      next hm => exact hm
      next => exact mem_append_right _ (mem_singleton_self _)

theorem sound_putOn (css : Option String) (h : p.2.Nodup) :
    Sound ⟨true, true, (putOn css p).1, (putOn css p).2, css⟩ :=
  ⟨nodup_putOn css h, fun _ _ hd => mem_putOn hd p⟩

theorem sound_new (css : Option String) : (new css).Sound := ⟨nodup_nil, nofun⟩

theorem nodup_takeOff (h : p.2.Nodup) : (takeOff p).2.Nodup := by
  unfold takeOff
  split
  · exact h.filter _
  · exact h

theorem Turn.sound (h : Turn a b) (ha : ∀ o ∈ a, Sound o) : ∀ o ∈ b, Sound o := by
  have hself : ∀ {o : Outfit}, some o = a → Sound o := fun ho => ha _ ho.symm
  intro o' ho'
  cases h with
  | enters h =>
    cases h with
    | stay => exact ha o' ho'
    | enter _ => exact Option.some.inj ho' ▸ sound_putOn _ (hself rfl).nodup
    | made css => exact Option.some.inj ho' ▸ sound_new css
    | madeLive css => exact Option.some.inj ho' ▸ sound_putOn _ (sound_new css).nodup
  | leaves h =>
    cases h with
    | stay => exact ha o' ho'
    | leave _ => exact Option.some.inj ho' ▸ ⟨(hself rfl).nodup, nofun⟩
  | restyle hlive css =>
    refine Option.some.inj ho' ▸ ⟨(hself rfl).nodup, fun ho => ?_⟩
    exact absurd (hlive.symm.trans ho) Bool.false_ne_true
  | renew _ css => exact Option.some.inj ho' ▸ sound_putOn _ (nodup_takeOff (hself rfl).nodup)

/-! ### Nothing but the current sheet -/

/-- What is live wears exactly what its styles ask for. -/
def Tidy (o : Outfit) : Prop := o.live = true → o.worn = wanted o.css

/-- What enters has nothing on but what its styles ask for. -/
def EntersClean (o o' : Outfit) : Prop :=
  o.live = false → o'.live = true → ∀ d ∈ o.worn, d ∈ wanted o'.css

/-- Putting on leaves nothing else on exactly if nothing else was on. -/
theorem putOn_eq_wanted_iff (h : p.2.Nodup) :
    (putOn css p).2 = wanted css ↔ ∀ d ∈ p.2, d ∈ wanted css := by
  cases css with
  | none => simp [putOn, wanted, eq_nil_iff_forall_not_mem]
  | some css =>
    by_cases hblank : Text.isBlankText css = true
    · simp [putOn, wanted, hblank, eq_nil_iff_forall_not_mem]
    · simp only [putOn, wanted, if_neg hblank, mem_singleton, wear]
      constructor
      · intro he d hd
        split at he
        · rw [he] at hd
          exact mem_singleton.mp hd
        next hnot =>
          have hnil : p.2 = [] := by
            have hlength := congrArg length he
            simpa using hlength
          rw [hnil] at hd
          cases hd
      · intro hall
        cases hp : p.2 with
        | nil => rfl
        | cons a rest =>
          rw [hp] at h hall
          obtain ⟨ha, hrest⟩ := forall_mem_cons.mp hall
          have hnil : rest = [] := by
            cases rest with
            | nil => rfl
            | cons b rest =>
              have hb := (forall_mem_cons.mp hrest).1
              rw [ha, hb] at h
              exact absurd (.head _) (nodup_cons.mp h).1
          rw [ha, hnil, if_pos (mem_singleton_self _)]

theorem takeOff_of_tidy (hs : o.Sound) (hlive : o.live = true) (ht : o.Tidy) :
    (takeOff o.clothes).2 = [] := by
  have hworn := ht hlive
  have hown : ∀ d ∈ o.worn, o.own = some d := fun d hd => (hs.current hlive d (hworn ▸ hd)).1
  unfold takeOff clothes
  cases ho : o.own with
  | none =>
    refine eq_nil_iff_forall_not_mem.mpr fun d hd => ?_
    rw [hown d hd] at ho
    cases ho
  | some digest =>
    refine filter_eq_nil_iff.mpr fun d hd => ?_
    rw [hown d hd] at ho
    simp [Option.some.inj ho]

/-- After a turn what is tidy is tidy exactly if whatever entered had nothing else on. -/
theorem Turn.tidy_iff (h : Turn a b) (hs : ∀ o ∈ a, Sound o) (ht : ∀ o ∈ a, Tidy o) :
    (∀ o' ∈ b, Tidy o') ↔ ∀ o ∈ a, ∀ o' ∈ b, EntersClean o o' := by
  -- what is not live before or is not live after asks for nothing
  have hsame : ∀ o o' : Outfit, (o.live = false → o'.live = true → False) → EntersClean o o' :=
    fun o o' hno hl hl' => (hno hl hl').elim
  have hstay : (∀ o' ∈ a, Tidy o') ↔ ∀ o ∈ a, ∀ o' ∈ a, EntersClean o o' := by
    refine ⟨fun _ o ho o' ho' => hsame o o' ?_, fun _ => ht⟩
    rintro hl hl'
    rw [Option.some.inj (ho.symm.trans ho'), hl'] at hl
    cases hl
  cases h with
  | enters h =>
    cases h with
    | stay => exact hstay
    | @enter o hlive =>
      have hputOn : (putOn o.css o.clothes).2 = wanted o.css ↔ ∀ d ∈ o.worn, d ∈ wanted o.css :=
        putOn_eq_wanted_iff (hs o rfl).nodup
      simp only [Option.mem_some_iff, forall_eq']
      exact ⟨fun he _ _ => hputOn.mp (he rfl), fun hc _ => hputOn.mpr (hc hlive rfl)⟩
    | made css => exact ⟨nofun, fun _ o' ho' => Option.some.inj ho' ▸ nofun⟩
    | madeLive css =>
      refine ⟨nofun, fun _ o' ho' => Option.some.inj ho' ▸ fun _ => ?_⟩
      exact (putOn_eq_wanted_iff (sound_new css).nodup).mpr nofun
  | leaves h =>
    cases h with
    | stay => exact hstay
    | leave hlive =>
      refine ⟨fun _ o _ o' ho' => hsame o o' fun _ hl' => ?_, fun _ o' ho' => ?_⟩
      · rw [← Option.some.inj ho'] at hl'
        cases hl'
      · exact Option.some.inj ho' ▸ nofun
  | @restyle o hlive css =>
    have hrestyled : (o.restyle css).live = false := hlive
    refine ⟨fun _ o₁ _ o' ho' => hsame o₁ o' fun _ hl' => ?_, fun _ o' ho' hl' => ?_⟩ <;>
      · rw [← Option.some.inj ho', hrestyled] at hl'
        cases hl'
  | @renew o hlive css =>
    refine ⟨fun _ o₁ ho₁ o' _ => hsame o₁ o' fun hl _ => ?_, fun _ o' ho' => ?_⟩
    · rw [← Option.some.inj ho₁, hlive] at hl
      cases hl
    · have hnothing := takeOff_of_tidy (hs o rfl) hlive (ht o rfl)
      refine Option.some.inj ho' ▸ fun _ => ?_
      have hnodup : (takeOff o.clothes).2.Nodup := nodup_takeOff (hs o rfl).nodup
      refine (putOn_eq_wanted_iff hnodup).mpr fun d hd => ?_
      rw [hnothing] at hd
      cases hd

end Outfit

end Componentry.Live
