import FrameSchedule.Config
import FrameSchedule.Document

/-!
# Configurations as documents

A configuration is written as an object with the one field `devices`, an object from
device numbers in decimal to profiles.  Reading wants that field; below it every
missing field has its default, and fields of other names are passed over.  A field
that is present must have its type: `null` stands for nothing.

Only objects are covered, and only those whose fields have different names.  Elsewhere a
reader may do otherwise: here an array is never read as the fields of a record in their
order, and of two fields with one name the first is taken, where both could be refused.
-/

namespace FrameSchedule

/-- Read limits. -/
def Limits.ofDocument? (d : Document) : Option Limits := do
  let fields ← d.fields?
  let base : Limits := {}
  let costMin ← Document.fieldD "command_list_cost_threshold_min" Document.word? base.costMin fields
  let listsMax ← Document.fieldD "command_lists_per_scope_max" Document.word? base.listsMax fields
  let itemCost ← Document.fieldD "item_cost" Document.word? base.itemCost fields
  let attachmentCost ← Document.fieldD "attachment_cost" Document.word? base.attachmentCost fields
  let swapchainsMax ←
    Document.fieldD "swap_chains_per_command_list" Document.word? base.swapchainsMax fields
  return { costMin, listsMax, itemCost, attachmentCost, swapchainsMax }

def Limits.toDocument (l : Limits) : Document :=
  .object [
    ("command_list_cost_threshold_min", .ofWord l.costMin),
    ("command_lists_per_scope_max", .ofWord l.listsMax),
    ("item_cost", .ofWord l.itemCost),
    ("attachment_cost", .ofWord l.attachmentCost),
    ("swap_chains_per_command_list", .ofWord l.swapchainsMax)]

namespace DeviceProfile

/-- Read the features of a device: whether presentations can be tracked there. -/
def trackingOfDocument? (d : Document) : Option Bool := do
  Document.fieldD "signal_fence_from_cpu" Document.bool? false (← d.fields?)

def trackingToDocument (tracking : Bool) : Document :=
  .object [("signal_fence_from_cpu", .bool tracking)]

/-- Read a profile. -/
def ofDocument? (d : Document) : Option DeviceProfile := do
  let fields ← d.fields?
  let limits ← Document.fieldD "limits" Limits.ofDocument? {} fields
  let tracking ← Document.fieldD "features" trackingOfDocument? false fields
  return { limits, tracking }

def toDocument (p : DeviceProfile) : Document :=
  .object [("limits", p.limits.toDocument), ("features", trackingToDocument p.tracking)]

end DeviceProfile

namespace Config

/-- Read the entry of a device. -/
def entryOfField? (field : String × Document) : Option DeviceEntry := do
  let word ← Document.wordOfKey? field.1
  let profile ← DeviceProfile.ofDocument? field.2
  return (⟨word⟩, profile)

def entryToField (e : DeviceEntry) : String × Document :=
  (toString e.1.word.toNat, e.2.toDocument)

/-- Read a configuration. -/
def ofDocument? (d : Document) : Option Config := do
  let devices ← (← d.fields?).lookup "devices"
  let entries ← (← devices.fields?).mapM entryOfField?
  return ofList entries

def toDocument (c : Config) : Document :=
  .object [("devices", .object (c.entries.map entryToField))]

end Config

end FrameSchedule
