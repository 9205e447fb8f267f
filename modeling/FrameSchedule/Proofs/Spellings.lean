import FrameSchedule.Config.Format
import Mathlib.Data.List.Forall2
import Mathlib.Data.List.Nodup
import Mathlib.Data.List.Perm.Basic
import Mathlib.Logic.Relation

/-!
# Spellings of a configuration

A configuration is read from the document that it has been written to.  The document may be
edited in between (`Config.Edit`): in the entry of a device, and below, a field with its default
can be dropped; anywhere but among the devices a field of another name can be added; and fields
can change places.

What an edited document keeps is that it spells the configuration (`Config.Spells`): of the
fields with a name each has the right value, and there is one unless the value is the default.
An edit keeps this, and a document is read as what it spells (`Config.ofDocument?_of_edits`).
-/

namespace FrameSchedule

/-! ## Objects -/

namespace Document

variable {α : Type} {name : String} {value d d' : Document} {fields : List (String × Document)}

/-- The document is an object with this field. -/
def Has (d : Document) (name : String) (value : Document) : Prop :=
  ∃ fields, d = .object fields ∧ (name, value) ∈ fields

/-- The document is an object with a field of this name. -/
def Names (d : Document) (name : String) : Prop :=
  ∃ value, d.Has name value

@[simp] theorem has_object : (object fields).Has name value ↔ (name, value) ∈ fields := by
  constructor
  · intro h
    obtain ⟨_, heq, hmem⟩ := h
    cases heq
    exact hmem
  · exact fun hmem => ⟨fields, rfl, hmem⟩

/-- A field among others. -/
theorem has_middle {before after : List (String × Document)} {name' : String} {value' : Document} :
    (object (before ++ (name', value') :: after)).Has name value ↔
      name = name' ∧ value = value' ∨ (object (before ++ after)).Has name value := by
  simp only [has_object, List.mem_append, List.mem_cons, Prod.mk.injEq]
  exact or_left_comm

/-- One edit of an object.  A field that `omits` allows to drop is dropped, one of a name that is
not `known` is added, one is edited in itself as `edits` says, or fields change places. -/
inductive Edit (known : String → Prop) (omits : String → Document → Prop)
    (edits : String → Document → Document → Prop) : Document → Document → Prop
  | drop {before after name value} : omits name value → Edit known omits edits
      (.object (before ++ (name, value) :: after)) (.object (before ++ after))
  | add {before after name value} : ¬ known name → Edit known omits edits
      (.object (before ++ after)) (.object (before ++ (name, value) :: after))
  | change {before after name value value'} : edits name value value' → Edit known omits edits
      (.object (before ++ (name, value) :: after)) (.object (before ++ (name, value') :: after))
  | move {fields fields'} : fields.Perm fields' → Edit known omits edits
      (.object fields) (.object fields')

section Edits

variable {known : String → Prop} {omits : String → Document → Prop}
  {edits : String → Document → Document → Prop}

/-- What becomes of a field: it is still there, has been dropped, or has been edited. -/
theorem Edit.forth (h : Edit known omits edits d d') (hvalue : d.Has name value) :
    d'.Has name value ∨ omits name value ∨
      ∃ value', edits name value value' ∧ d'.Has name value' := by
  cases h with
  | drop hdrop =>
    rcases has_middle.1 hvalue with ⟨rfl, rfl⟩ | hrest
    · exact .inr (.inl hdrop)
    · exact .inl hrest
  | add hadd => exact .inl (has_middle.2 (.inr hvalue))
  | change hchange =>
    rcases has_middle.1 hvalue with ⟨rfl, rfl⟩ | hrest
    · exact .inr (.inr ⟨_, hchange, has_middle.2 (.inl ⟨rfl, rfl⟩)⟩)
    · exact .inl (has_middle.2 (.inr hrest))
  | move hperm => exact .inl (has_object.2 (hperm.mem_iff.1 (has_object.1 hvalue)))

/-- Where a field of a known name comes from: it was there, or has been edited. -/
theorem Edit.back (h : Edit known omits edits d d') (hknown : known name)
    (hvalue : d'.Has name value) :
    d.Has name value ∨ ∃ value', edits name value' value ∧ d.Has name value' := by
  cases h with
  | drop hdrop => exact .inl (has_middle.2 (.inr hvalue))
  | add hadd =>
    rcases has_middle.1 hvalue with ⟨rfl, rfl⟩ | hrest
    · exact (hadd hknown).elim
    · exact .inl hrest
  | change hchange =>
    rcases has_middle.1 hvalue with ⟨rfl, rfl⟩ | hrest
    · exact .inr ⟨_, hchange, has_middle.2 (.inl ⟨rfl, rfl⟩)⟩
    · exact .inl (has_middle.2 (.inr hrest))
  | move hperm => exact .inl (has_object.2 (hperm.mem_iff.2 (has_object.1 hvalue)))

end Edits

/-- The document is an object whose fields of a name are all good.  There is one, unless the
field is optional. -/
structure Spelled (name : String) (good : Document → Prop) (optional : Prop) (d : Document) :
    Prop where
  object : ∃ fields, d = .object fields
  good : ∀ value, d.Has name value → good value
  present : d.Names name ∨ optional

namespace Spelled

variable {good good' : Document → Prop} {optional optional' : Prop} {known : String → Prop}
  {omits : String → Document → Prop} {edits : String → Document → Document → Prop}

theorem imp (h : Spelled name good optional d) (hgood : ∀ value, good value → good' value)
    (hoptional : optional → optional') : Spelled name good' optional' d :=
  ⟨h.object, fun value hvalue => hgood value (h.good value hvalue),
    h.present.imp_right hoptional⟩

/-- **An edit** keeps what a field of a known name spells. -/
theorem edit (h : Spelled name good optional d) (hedit : Edit known omits edits d d')
    (hknown : known name) (homits : ∀ value, omits name value → good value → optional)
    (hedits : ∀ value value', edits name value value' → good value → good value') :
    Spelled name good optional d' := by
  refine ⟨by cases hedit <;> exact ⟨_, rfl⟩, fun value' hvalue' => ?_, ?_⟩
  · rcases hedit.back hknown hvalue' with hvalue | ⟨value, hchange, hvalue⟩
    · exact h.good value' hvalue
    · exact hedits value value' hchange (h.good value hvalue)
  · rcases h.present with ⟨value, hvalue⟩ | hoptional
    · rcases hedit.forth hvalue with hvalue' | hdrop | ⟨value', -, hvalue'⟩
      · exact .inl ⟨value, hvalue'⟩
      · exact .inr (homits value hdrop (h.good value hvalue))
      · exact .inl ⟨value', hvalue'⟩
    · exact .inr hoptional

/-- A field that is looked up is good, and is missing only if it is optional. -/
theorem lookup (h : Spelled name good optional (.object fields)) :
    fields.lookup name = none ∧ optional ∨
      ∃ value, fields.lookup name = some value ∧ good value := by
  cases hvalue : fields.lookup name with
  | none =>
    refine .inl ⟨rfl, h.present.resolve_left fun hnames => ?_⟩
    obtain ⟨value, hmem⟩ := hnames
    have hne := List.lookup_eq_none_iff.1 hvalue _ (Document.has_object.1 hmem)
    simp at hne
  | some value =>
    obtain ⟨before, after, rfl, -⟩ := List.lookup_eq_some_iff.1 hvalue
    exact .inr ⟨value, rfl, h.good value (by simp)⟩

/-- A field is read as what it spells. -/
theorem fieldD {read : Document → Option α} {a default : α}
    (h : Spelled name (fun value => read value = some a) (a = default) (.object fields)) :
    Document.fieldD name read default fields = some a := by
  unfold Document.fieldD
  rcases h.lookup with ⟨hnone, hdefault⟩ | ⟨value, hvalue, hread⟩
  · rw [hnone, hdefault]
  · rw [hvalue]
    exact hread

end Spelled

end Document

open Document (Spelled)

/-! ## Limits -/

namespace Limits

variable {l : Limits} {d d' : Document}

/-- The limits by the names of their fields. -/
def words (l : Limits) : List (String × UInt32) := [
  ("command_list_cost_threshold_min", l.costMin),
  ("command_lists_per_scope_max", l.listsMax),
  ("item_cost", l.itemCost),
  ("attachment_cost", l.attachmentCost),
  ("swap_chains_per_command_list", l.swapchainsMax)]

theorem toDocument_eq (l : Limits) :
    l.toDocument = .object (l.words.map fun f => (f.1, .ofWord f.2)) := rfl

/-- A limit is known by its name. -/
theorem words_inj {f f' : String × UInt32} (hf : f ∈ l.words) (hf' : f' ∈ l.words)
    (hname : f.1 = f'.1) : f = f' := by
  have hnames : (l.words.map (·.1)).Nodup := by
    show (["command_list_cost_threshold_min", "command_lists_per_scope_max", "item_cost",
      "attachment_cost", "swap_chains_per_command_list"] : List String).Nodup
    decide
  exact List.inj_on_of_nodup_map hnames hf hf' hname

theorem has_toDocument {name : String} {value : Document} :
    l.toDocument.Has name value ↔ ∃ w, (name, w) ∈ l.words ∧ value = .ofWord w := by
  rw [toDocument_eq, Document.has_object, List.mem_map]
  constructor
  · intro h
    obtain ⟨⟨name', w⟩, hw, heq⟩ := h
    cases heq
    exact ⟨w, hw, rfl⟩
  · intro h
    obtain ⟨w, hw, rfl⟩ := h
    exact ⟨(name, w), hw, rfl⟩

/-- One edit of limits: a field with its default can be dropped. -/
def Edit : Document → Document → Prop :=
  Document.Edit ({} : Limits).toDocument.Names ({} : Limits).toDocument.Has fun _ _ _ => False

/-- The document spells the limits. -/
def Spells (l : Limits) (d : Document) : Prop :=
  ∀ f ∈ l.words, Spelled f.1 (fun value => value.word? = some f.2) (f ∈ ({} : Limits).words) d

theorem spells_toDocument (l : Limits) : l.Spells l.toDocument := by
  intro f hf
  refine ⟨⟨_, toDocument_eq l⟩, fun value hvalue => ?_, .inl ⟨_, has_toDocument.2 ⟨f.2, hf, rfl⟩⟩⟩
  obtain ⟨w, hw, rfl⟩ := has_toDocument.1 hvalue
  rw [words_inj hf hw rfl]
  exact Document.word?_ofWord w

/-- The names of the fields do not depend on the limits. -/
theorem names_of_mem_words {f : String × UInt32} (hf : f ∈ l.words) :
    ({} : Limits).toDocument.Names f.1 := by
  have hname : f.1 ∈ ({} : Limits).words.map (·.1) := List.mem_map_of_mem (f := (·.1)) hf
  obtain ⟨f', hf', hsame⟩ := List.mem_map.1 hname
  exact ⟨_, has_toDocument.2 ⟨f'.2, hsame ▸ hf', rfl⟩⟩

theorem Spells.edit (h : l.Spells d) (hedit : Edit d d') : l.Spells d' := by
  intro f hf
  refine (h f hf).edit hedit (names_of_mem_words hf) ?_ fun _ _ hfalse => hfalse.elim
  intro value hdefault hvalue
  obtain ⟨w, hw, rfl⟩ := has_toDocument.1 hdefault
  rw [Document.word?_ofWord, Option.some_inj] at hvalue
  rwa [hvalue] at hw

/-- Limits are read as what the document spells. -/
theorem Spells.ofDocument? (h : l.Spells d) : Limits.ofDocument? d = some l := by
  obtain ⟨fields, rfl⟩ := (h _ List.mem_cons_self).object
  have hread : ∀ (k : Nat) {name : String} {w default : UInt32}, l.words[k]? = some (name, w) →
      ({} : Limits).words[k]? = some (name, default) →
        Document.fieldD name Document.word? default fields = some w := by
    intro k name w default hw hdefault
    refine ((h _ (List.mem_of_getElem? hw)).imp (fun _ hvalue => hvalue) fun hsame => ?_).fieldD
    exact congrArg (·.2) (words_inj hsame (List.mem_of_getElem? hdefault) rfl)
  have hcostMin := hread 0 rfl rfl
  have hlistsMax := hread 1 rfl rfl
  have hitemCost := hread 2 rfl rfl
  have hattachmentCost := hread 3 rfl rfl
  have hswapchainsMax := hread 4 rfl rfl
  simp only [Limits.ofDocument?, Document.fields?, Option.bind_eq_bind, Option.bind_some, hcostMin,
    hlistsMax, hitemCost, hattachmentCost, hswapchainsMax]
  rfl

/-- A document spells no other limits. -/
theorem Spells.unique {l' : Limits} (h : l.Spells d) (h' : l'.Spells d) : l = l' :=
  Option.some_inj.1 (h.ofDocument?.symm.trans h'.ofDocument?)

end Limits

/-! ## Profiles -/

namespace DeviceProfile

variable {p : DeviceProfile} {tracking : Bool} {d d' : Document}

/-- One edit of features. -/
def TrackingEdit : Document → Document → Prop :=
  Document.Edit (trackingToDocument false).Names (trackingToDocument false).Has fun _ _ _ => False

/-- The document spells whether presentations can be tracked. -/
def TrackingSpells (tracking : Bool) (d : Document) : Prop :=
  Spelled "signal_fence_from_cpu" (fun value => value.bool? = some tracking) (tracking = false) d

theorem has_trackingToDocument {name : String} {value : Document} :
    (trackingToDocument tracking).Has name value ↔
      name = "signal_fence_from_cpu" ∧ value = .bool tracking := by
  rw [trackingToDocument, Document.has_object, List.mem_singleton, Prod.mk.injEq]

theorem spells_trackingToDocument (tracking : Bool) :
    TrackingSpells tracking (trackingToDocument tracking) := by
  refine ⟨⟨_, rfl⟩, fun value hvalue => ?_, .inl ⟨_, has_trackingToDocument.2 ⟨rfl, rfl⟩⟩⟩
  rw [(has_trackingToDocument.1 hvalue).2]
  rfl

theorem TrackingSpells.edit (h : TrackingSpells tracking d) (hedit : TrackingEdit d d') :
    TrackingSpells tracking d' := by
  refine Spelled.edit h hedit ⟨_, has_trackingToDocument.2 ⟨rfl, rfl⟩⟩ ?_
    fun _ _ hfalse => hfalse.elim
  intro value hdefault hvalue
  rw [(has_trackingToDocument.1 hdefault).2] at hvalue
  exact (Option.some_inj.1 hvalue).symm

theorem TrackingSpells.ofDocument? (h : TrackingSpells tracking d) :
    trackingOfDocument? d = some tracking := by
  obtain ⟨fields, rfl⟩ := h.object
  exact Spelled.fieldD h

theorem TrackingSpells.unique {tracking' : Bool} (h : TrackingSpells tracking d)
    (h' : TrackingSpells tracking' d) : tracking = tracking' :=
  Option.some_inj.1 (h.ofDocument?.symm.trans h'.ofDocument?)

/-- One edit of a profile.  Limits or features with their default can be dropped, or edited. -/
def Edit : Document → Document → Prop :=
  Document.Edit ({} : DeviceProfile).toDocument.Names ({} : DeviceProfile).toDocument.Has
    fun name value value' => name = "limits" ∧ Limits.Edit value value' ∨
      name = "features" ∧ TrackingEdit value value'

/-- The document spells the profile. -/
structure Spells (p : DeviceProfile) (d : Document) : Prop where
  limits : Spelled "limits" p.limits.Spells (p.limits = {}) d
  features : Spelled "features" (TrackingSpells p.tracking) (p.tracking = false) d

theorem has_toDocument {name : String} {value : Document} :
    p.toDocument.Has name value ↔ name = "limits" ∧ value = p.limits.toDocument ∨
      name = "features" ∧ value = trackingToDocument p.tracking := by
  rw [toDocument, Document.has_object]
  simp only [List.mem_cons, Prod.mk.injEq, List.not_mem_nil, or_false]

theorem has_limits {value : Document} :
    p.toDocument.Has "limits" value ↔ value = p.limits.toDocument := by
  simp [has_toDocument]

theorem has_features {value : Document} :
    p.toDocument.Has "features" value ↔ value = trackingToDocument p.tracking := by
  simp [has_toDocument]

theorem spells_toDocument (p : DeviceProfile) : p.Spells p.toDocument := by
  constructor
  · refine ⟨⟨_, rfl⟩, fun value hvalue => ?_, .inl ⟨_, has_limits.2 rfl⟩⟩
    rw [has_limits.1 hvalue]
    exact p.limits.spells_toDocument
  · refine ⟨⟨_, rfl⟩, fun value hvalue => ?_, .inl ⟨_, has_features.2 rfl⟩⟩
    rw [has_features.1 hvalue]
    exact spells_trackingToDocument p.tracking

theorem Spells.edit (h : p.Spells d) (hedit : Edit d d') : p.Spells d' := by
  constructor
  · refine h.limits.edit hedit ⟨_, has_limits.2 rfl⟩ ?_ ?_
    · intro value hdefault hvalue
      rw [has_limits.1 hdefault] at hvalue
      exact hvalue.unique (Limits.spells_toDocument {})
    · intro value value' hedits hvalue
      rcases hedits with ⟨-, hlimits⟩ | ⟨hname, -⟩
      · exact hvalue.edit hlimits
      · exact absurd hname (by decide)
  · refine h.features.edit hedit ⟨_, has_features.2 rfl⟩ ?_ ?_
    · intro value hdefault hvalue
      rw [has_features.1 hdefault] at hvalue
      exact hvalue.unique (spells_trackingToDocument false)
    · intro value value' hedits hvalue
      rcases hedits with ⟨hname, -⟩ | ⟨-, hfeatures⟩
      · exact absurd hname (by decide)
      · exact hvalue.edit hfeatures

/-- A profile is read as what the document spells. -/
theorem Spells.ofDocument? (h : p.Spells d) : DeviceProfile.ofDocument? d = some p := by
  obtain ⟨fields, rfl⟩ := h.limits.object
  have hlimits : Document.fieldD "limits" Limits.ofDocument? {} fields = some p.limits :=
    (h.limits.imp (fun _ hvalue => hvalue.ofDocument?) id).fieldD
  have htracking : Document.fieldD "features" trackingOfDocument? false fields = some p.tracking :=
    (h.features.imp (fun _ hvalue => hvalue.ofDocument?) id).fieldD
  simp only [DeviceProfile.ofDocument?, Document.fields?, Option.bind_eq_bind, Option.bind_some,
    hlimits, htracking]
  rfl

end DeviceProfile

/-! ## Entries -/

namespace Config

variable {c : Config} {es es' : List DeviceEntry} {e : DeviceEntry} {d d' : Document}
  {fields fields' : List (String × Document)}

/-- An entry whose device has none goes to its place among the others. -/
theorem place_perm {device : DeviceIndex} {profile : DeviceProfile}
    (hnew : ∀ e ∈ es, e.1 ≠ device) : (place device profile es).Perm ((device, profile) :: es) := by
  induction es with
  | nil => exact .refl _
  | cons e es ih =>
    rw [place]
    split
    · exact .refl _
    · rw [if_neg fun heq => hnew e List.mem_cons_self heq.symm]
      exact ((ih fun e' he' => hnew e' (List.mem_cons_of_mem e he')).cons e).trans (.swap _ _ _)

/-- Entries of different devices are put together. -/
theorem entries_ofList (hdistinct : (es.map (·.1)).Nodup) : (ofList es).entries.Perm es := by
  have hfold : ∀ c : Config, ((c.entries ++ es).map (·.1)).Nodup →
      (es.foldl (fun c e => c.insert e.1 e.2) c).entries.Perm (c.entries ++ es) := by
    clear hdistinct
    induction es with
    | nil =>
      intro c _
      rw [List.append_nil]
      exact .refl _
    | cons e es ih =>
      intro c hdistinct
      have hnew : ∀ e' ∈ c.entries, e'.1 ≠ e.1 := by
        rw [List.map_append, List.map_cons, List.nodup_append] at hdistinct
        exact fun e' he' => hdistinct.2.2 _ (List.mem_map_of_mem he') _ List.mem_cons_self
      have hplaced : ((c.insert e.1 e.2).entries ++ es).Perm (c.entries ++ e :: es) :=
        ((place_perm hnew).append_right es).trans List.perm_middle.symm
      exact (ih _ ((hplaced.map _).nodup_iff.2 hdistinct)).trans hplaced
  exact hfold {} hdistinct

/-- **The entries of a configuration**, in any order, make it up. -/
theorem ofList_eq (h : es.Perm c.entries) : ofList es = c := by
  have hdistinct : (c.entries.map (·.1)).Nodup := by
    refine List.pairwise_map.2 (c.sorted.imp fun {a b} hlt heq => ?_)
    rw [heq] at hlt
    exact UInt32.lt_irrefl _ hlt
  have hperm := (entries_ofList ((h.map _).nodup_iff.2 hdistinct)).trans h
  refine Config.ext (hperm.eq_of_pairwise ?_ (ofList es).sorted c.sorted)
  exact fun a b _ _ hab hba => (UInt32.lt_asymm hab hba).elim

/-! ## Configurations -/

/-- One edit of the devices: a profile can be edited, but no device comes or goes. -/
def DevicesEdit : Document → Document → Prop :=
  Document.Edit (fun _ => True) (fun _ _ => False) fun _ => DeviceProfile.Edit

/-- One edit of a configuration.  A field of another name than `devices` can be added. -/
def Edit : Document → Document → Prop :=
  Document.Edit (· = "devices") (fun _ _ => False) fun name value value' =>
    name = "devices" ∧ DevicesEdit value value'

/-- The field spells the entry. -/
structure EntrySpells (e : DeviceEntry) (field : String × Document) : Prop where
  key : field.1 = toString e.1.word.toNat
  profile : e.2.Spells field.2

/-- The document has a field for each entry, in any order. -/
def DevicesSpells (es : List DeviceEntry) (d : Document) : Prop :=
  ∃ fields es', d = .object fields ∧ es'.Perm es ∧ List.Forall₂ EntrySpells es' fields

/-- The document spells the configuration. -/
def Spells (c : Config) (d : Document) : Prop :=
  Spelled "devices" (DevicesSpells c.entries) False d

theorem spells_toDocument (c : Config) : c.Spells c.toDocument := by
  refine ⟨⟨_, rfl⟩, fun value hvalue => ?_, .inl ⟨_, Document.has_object.2 List.mem_cons_self⟩⟩
  rw [toDocument, Document.has_object, List.mem_singleton, Prod.mk.injEq] at hvalue
  obtain ⟨-, rfl⟩ := hvalue
  refine ⟨_, c.entries, rfl, .refl _, ?_⟩
  rw [List.forall₂_map_right_iff]
  exact List.forall₂_same.2 fun e _ => ⟨rfl, e.2.spells_toDocument⟩

/-- Devices that change places spell the same entries. -/
theorem DevicesSpells.move (h : DevicesSpells es (.object fields)) (hperm : fields.Perm fields') :
    DevicesSpells es (.object fields') := by
  obtain ⟨_, es₁, heq, hes₁, hspells⟩ := h
  cases heq
  obtain ⟨es₂, hes₂, hspells₂⟩ :
      Relation.Comp List.Perm (List.Forall₂ EntrySpells) es₁ fields' := by
    rw [← List.forall₂_comp_perm_eq_perm_comp_forall₂]
    exact ⟨fields, hspells, hperm⟩
  exact ⟨fields', es₂, rfl, hes₂.symm.trans hes₁, hspells₂⟩

theorem DevicesSpells.edit (h : DevicesSpells es d) (hedit : DevicesEdit d d') :
    DevicesSpells es d' := by
  cases hedit with
  | drop hfalse => exact hfalse.elim
  | add hfalse => exact (hfalse trivial).elim
  | @change before after name value value' hprofile =>
    -- the entry that is edited is brought to the front
    obtain ⟨_, _, heq, hes', hspells⟩ := h.move List.perm_middle
    cases heq
    obtain ⟨e, es'', he, hrest, rfl⟩ := List.forall₂_cons_right_iff.1 hspells
    have hedited : EntrySpells e (name, value') := ⟨he.key, he.profile.edit hprofile⟩
    have hfront : DevicesSpells es (.object ((name, value') :: (before ++ after))) :=
      ⟨_, _, rfl, hes', .cons hedited hrest⟩
    exact hfront.move List.perm_middle.symm
  | move hperm => exact h.move hperm

/-- **An edit** keeps what the document spells. -/
theorem Spells.edit (h : c.Spells d) (hedit : Edit d d') : c.Spells d' := by
  refine Spelled.edit h hedit rfl (fun _ hfalse => hfalse.elim) ?_
  exact fun value value' hdevices hvalue => hvalue.edit hdevices.2

theorem EntrySpells.entryOfField? {field : String × Document} (h : EntrySpells e field) :
    Config.entryOfField? field = some e := by
  simp only [Config.entryOfField?, h.key, Document.wordOfKey?_toString, h.profile.ofDocument?,
    Option.bind_eq_bind, Option.bind_some]
  rfl

theorem mapM_entryOfField? (h : List.Forall₂ EntrySpells es fields) :
    fields.mapM entryOfField? = some es := by
  induction h with
  | nil => rfl
  | cons he _ ih => rw [List.mapM_cons, he.entryOfField?, ih]; rfl

/-- **A document is read as what it spells.** -/
theorem Spells.ofDocument? (h : c.Spells d) : Config.ofDocument? d = some c := by
  obtain ⟨fields, rfl⟩ := h.object
  obtain ⟨value, hdevices, hvalue⟩ := h.lookup.resolve_left fun hnone => hnone.2
  obtain ⟨entries, es, rfl, hperm, hspells⟩ := hvalue
  simp only [Config.ofDocument?, Document.fields?, Option.bind_eq_bind, Option.bind_some, hdevices,
    mapM_entryOfField? hspells, ofList_eq hperm]
  rfl

/-- **A configuration is read back** from the document that it is written to, and from any
document that comes of it by edits: fields at or below the entry of a device that have their
defaults may have been dropped, fields of unknown names may have been added to any object but
that of the devices, and the fields of any object may have changed places. -/
theorem ofDocument?_of_edits (c : Config) :
    ofDocument? c.toDocument = some c ∧
      ∀ d, Relation.ReflTransGen Edit c.toDocument d → ofDocument? d = some c := by
  have hspells : ∀ d, Relation.ReflTransGen Edit c.toDocument d → c.Spells d := by
    intro d hedits
    induction hedits with
    | refl => exact c.spells_toDocument
    | tail _ hedit ih => exact ih.edit hedit
  exact ⟨c.spells_toDocument.ofDocument?, fun d hedits => (hspells d hedits).ofDocument?⟩

/-- A device with defaults, and one that costs more and tracks presentations. -/
def mixed : Config where
  entries := [(⟨0⟩, {}), (⟨7⟩, { limits := { itemCost := 3 }, tracking := true })]
  sorted := by decide

/-- Of one device nothing is left but its number; the other comes first, has a field more, and
has lost a limit. -/
def mixedEdited : Document :=
  .object [
    ("devices", .object [
      ("7", .object [
        ("limits", .object [
          ("command_lists_per_scope_max", .ofWord 16),
          ("item_cost", .ofWord 3),
          ("attachment_cost", .ofWord 8),
          ("swap_chains_per_command_list", .ofWord 8)]),
        ("features", .object [
          ("signal_fence_from_cpu", .bool true),
          ("vendor", .text "none")])]),
      ("0", .object [])]),
    ("version", .null)]

open Document.Edit in
theorem ofDocument?_of_edits_mixed :
    Relation.ReflTransGen Edit mixed.toDocument mixedEdited ∧
      ofDocument? mixedEdited = some mixed := by
  have hedits : Relation.ReflTransGen Edit mixed.toDocument mixedEdited := by
    -- the first device loses its limits and its features
    refine .head (@change _ _ _ [] _ _ _ _ ⟨rfl, @change _ _ _ [] _ _ _ _
      (@drop _ _ _ [] _ _ _ ⟨_, rfl, List.mem_cons_self⟩)⟩) ?_
    refine .head (@change _ _ _ [] _ _ _ _ ⟨rfl, @change _ _ _ [] _ _ _ _
      (@drop _ _ _ [] _ _ _ ⟨_, rfl, List.mem_cons_of_mem _ List.mem_cons_self⟩)⟩) ?_
    -- the second goes to the front, loses a limit, and gets a feature of another name
    refine .head (@change _ _ _ [] _ _ _ _ ⟨rfl, move (.swap _ _ _)⟩) ?_
    refine .head (@change _ _ _ [] _ _ _ _ ⟨rfl, @change _ _ _ [] _ _ _ _
      (@change _ _ _ [] _ _ _ _ (.inl ⟨rfl, @drop _ _ _ [] _ _ _
        ⟨_, rfl, List.mem_cons_self⟩⟩))⟩) ?_
    refine .head (@change _ _ _ [] _ _ _ _ ⟨rfl, @change _ _ _ [] _ _ _ _
      (@change _ _ _ [_] _ _ _ _ (.inr ⟨rfl, @add _ _ _ [_] [] "vendor" (.text "none") ?_⟩))⟩) ?_
    · intro hknown
      obtain ⟨value, hvalue⟩ := hknown
      exact absurd (DeviceProfile.has_trackingToDocument.1 hvalue).1 (by decide)
    exact .single (@add _ _ _ [_] [] "version" .null (by decide))
  exact ⟨hedits, (ofDocument?_of_edits mixed).2 _ hedits⟩

end Config

end FrameSchedule
