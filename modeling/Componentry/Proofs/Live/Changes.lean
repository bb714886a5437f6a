import Componentry.Proofs.Live.Operation

/-!
# What operations are made of

Apart from events and the passing of time, all that is asked of a page comes down to changes of a few
kinds: nodes are made and moved, authors are told, instances are made, brought into the document and taken
out of it, and components are taken up and replaced. What each of these changes keeps, every operation
keeps.
-/

namespace Componentry.Live

open Document

variable {σ : Type}

namespace Page

variable {s : Page σ} {id : InstanceId} {i : Instance σ} {c : Component σ} {op : Operation σ}
  {fit : Component σ → Prop} {p : Page σ → Prop}

/-- Each change that operations are made of keeps what is said of a page, as long as the components that
are taken up are of a certain kind. -/
structure Durable (fit : Component σ → Prop) (p : Page σ → Prop) : Prop where
  /-- Nodes are made or moved, or their attributes change. -/
  forest : ∀ {s f}, p s → (∀ {r}, Forest.Frame.Open r → r s.forest f) → p { s with forest := f }
  /-- An author is told. -/
  told : ∀ {s id i} {callback : Authored σ Unit}, p s → s.instance? id = some i →
    (∀ {r}, i.behaviour.Respects r → Live.Respects r callback) → p (s.run callback).1
  location : ∀ {s} location, p s → p { s with location }
  made : ∀ {s n tag cls c}, p s → s.owner? n = none → s.forest.tag? n = some tag →
    s.class? cls = some c → p (s.withInstance n cls c)
  /-- An instance is about to be connected. -/
  opening : ∀ {s id i}, p s → s.instance? id = some i → i.state ≠ .connected →
    p (s.updateInstance id fun _ => { i with state := .connecting })
  /-- An instance is about to be connected anew, if its component is there. -/
  reopening : ∀ {s id i}, p s → (s.unwire id).instance? id = some i →
    p ((s.unwire id).updateInstance id fun _ => { i with state := .connecting })
  unwired : ∀ {s id i}, p s → s.instance? id = some i → s.class? i.cls = none → p (s.unwire id)
  /-- The template of an instance is copied. -/
  mounted : ∀ {s id i c}, p s → s.instance? id = some i → s.class? i.cls = some c →
    p (s.mount id i c.description).1
  decorated : ∀ {s t}, p s → Decorated s t → p t
  /-- An instance is connected. -/
  settled : ∀ {s id i}, p s → s.instance? id = some i → i.state = .connecting →
    p { s.updateInstance id fun i => { i with state := .connected } with
      scheduler := s.scheduler.queueMicrotask (.wire id) }
  /-- An instance is no longer connected. -/
  left : ∀ {s id i} stage, p s → s.instance? id = some i →
    p (((s.updateInstance id fun i => { i with state := .disconnected }).unwire id).run
      (i.behaviour.disconnected stage)).1
  registered : ∀ {s c}, p s → fit c → p (s.register c)
  recast : ∀ {s} sourceId template styles globalStyles, p s →
    p (s.recast sourceId template styles globalStyles)

namespace Durable

variable (hp : Durable fit p)

include hp

/-- What is kept until an instance is about to be connected is kept when it is. -/
theorem runConnection (hi : s.instance? id = some i) (hc : s.class? i.cls = some c)
    (hs : p (s.updateInstance id fun _ => { i with state := .connecting })) (fresh : Bool) :
    p (s.runConnection id fresh) := by
  let opened : Instance σ := { i with state := .connecting }
  have hopened : (s.updateInstance id fun _ => opened).instance? id = some opened :=
    instance?_updateInstance_self hi _
  have hcopied : ∀ r, (if fresh then (s.updateInstance id fun _ => opened).mount id opened c.description
      else (s.updateInstance id fun _ => opened, opened)) = r →
      p r.1 ∧ r.1.instance? id = some r.2 ∧ r.2.state = .connecting := by
    rintro r rfl
    split
    · refine ⟨hp.mounted hs hopened hc, instance?_updateInstance_self (i := opened) ?_ _, rfl⟩
      exact hopened
    · exact ⟨hs, hopened, rfl⟩
  obtain ⟨hr, hstored, hstate⟩ := hcopied _ rfl
  have hfurnish := Decorates.furnish rfl hstored
  have hplain := hfurnish.plain_eq hstored
  unfold Page.runConnection
  simp only [hi, hc]
  generalize Page.furnish _ id _ c.description fresh = q at hfurnish hplain ⊢
  have htold := hp.told (hp.decorated hr hfurnish.decorated) hfurnish.stored
    fun hb => hb.connected (q.1.stage q.2)
  exact hp.settled htold hfurnish.stored ((congrArg Instance.state hplain).trans hstate)

section

variable (hs : p s)

include hs

theorem connect (id : InstanceId) : p (s.connect id) := by
  refine connect_keeps hs fun i hi hstate => ?_
  cases hc : s.class? i.cls with
  | none =>
    simp only [Page.runConnection, hi, hc]
    exact hs
  | some c => exact hp.runConnection hi hc (hp.opening hs hi hstate) _

theorem reconnect (id : InstanceId) : p ((s.unwire id).runConnection id true) := by
  cases hi : s.instance? id with
  | none =>
    have hu : s.unwire id = s := by
      unfold unwire
      rw [hi]
    unfold Page.runConnection
    rw [hu, hi]
    exact hs
  | some i =>
    have hi' : (s.unwire id).instance? id = some { i with listeners := [], wired := false } := by
      rw [instance?_unwire, if_pos rfl, hi]
      rfl
    have hclass : (s.unwire id).class? i.cls = s.class? i.cls := by
      unfold unwire
      rw [hi]
      rfl
    cases hc : s.class? i.cls with
    | none =>
      simp only [Page.runConnection, hi', hclass.trans hc]
      exact hp.unwired hs hi hc
    | some c => exact hp.runConnection hi' (hclass.trans hc) (hp.reopening hs hi') true

theorem ensureInstance (n : NodeId) : p (s.ensureInstance n).1 :=
  ensureInstance_keeps hs fun ho ht _ hc => hp.made hs ho ht hc

theorem connectTree (root : NodeId) : p (s.connectTree root) :=
  connectTree_keeps (p := p) (fun _ n hs => hp.ensureInstance hs n) (fun _ id hs => hp.connect hs id) hs root

theorem disconnectTree (root : NodeId) : p (s.disconnectTree root) :=
  disconnectTree_keeps (p := p) (fun _ _ hs => disconnect_keeps hs fun _ stage hi _ => hp.left stage hs hi) hs root

/-- What the changes keep, every operation keeps, if events and the passing of time keep it. -/
theorem perform (hevolves : op.isPlain = false → ∀ {t}, Evolves s t → p t)
    (hfit : ∀ c, op = .define c → fit c) : p (s.perform op) := by
  have hattributes : ∀ element g, p { s with forest := s.forest.updateAttributes element g } :=
    fun element g => hp.forest hs fun hr => hr.attributes _ element g
  refine perform_keeps hevolves (fun _ => hp.forest hs fun hr => hr.create ..)
    (fun tag => hp.ensureInstance (hp.forest hs fun hr => hr.create ..) _) hattributes
    (fun element g name old new => ?_)
    (adopt_keeps hs fun _ _ stage hi => hp.told hs hi fun hb => hb.adopted stage)
    (fun _ => hp.location _ hs)
    (fun c hc => define_keeps hs fun _ _ => hp.connectTree (hp.registered hs (hfit c hc)) _)
    (fun parent child _ => append_keeps (p := p) (fun _ _ n hs => hp.connectTree hs n)
      (fun _ _ n hs => hp.disconnectTree hs n) (hp.forest hs fun hr => hr.append _ parent child))
    (fun node _ => remove_keeps (p := p) (fun _ n hs => hp.disconnectTree hs n)
      (hp.forest hs fun hr => hr.detach _ node))
    fun _ _ _ _ _ => hotUpdate_keeps (hp.recast _ _ _ _ hs) fun _ id hs => hp.reconnect hs id
  refine tellAttribute_keeps (hattributes element g) (fun _ _ stage name hi => ?_) element name
  exact hp.told (hattributes element g) hi fun hb => hb.attributeChanged stage name old new

end

end Durable

end Page

end Componentry.Live
