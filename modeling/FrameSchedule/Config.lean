import FrameSchedule.Limits

/-!
# Configurations

A profile for each device, in the order of the device numbers.  The order is a field
of the type, so two configurations with the same profiles are equal.
-/

namespace FrameSchedule

/-- A device with its profile. -/
abbrev DeviceEntry := DeviceIndex × DeviceProfile

/-- The profiles of the devices, sorted by device number. -/
structure Config where
  entries : List DeviceEntry := []
  sorted : entries.Pairwise (fun a b => a.1.word < b.1.word) := by simp

namespace Config

instance : Inhabited Config := ⟨{}⟩

@[ext] theorem ext {c d : Config} (h : c.entries = d.entries) : c = d := by
  cases c
  cases d
  cases h
  rfl

instance : DecidableEq Config := fun c d =>
  decidable_of_iff (c.entries = d.entries) ⟨ext, congrArg entries⟩

/-- The profile of a device. -/
def find? (c : Config) (device : DeviceIndex) : Option DeviceProfile :=
  (c.entries.find? (·.1 = device)).map (·.2)

/-- Put an entry at its place, over an entry of the same device. -/
def place (device : DeviceIndex) (profile : DeviceProfile) : List DeviceEntry → List DeviceEntry
  | [] => [(device, profile)]
  | e :: es =>
    if device.word < e.1.word then (device, profile) :: e :: es
    else if device = e.1 then (device, profile) :: es
    else e :: place device profile es

theorem mem_place {device : DeviceIndex} {profile : DeviceProfile} {es : List DeviceEntry}
    {e : DeviceEntry} (h : e ∈ place device profile es) : e = (device, profile) ∨ e ∈ es := by
  induction es with
  | nil => simpa [place] using h
  | cons d es ih => grind [place]

theorem sorted_place {device : DeviceIndex} {profile : DeviceProfile} {es : List DeviceEntry}
    (h : es.Pairwise fun a b => a.1.word < b.1.word) :
    (place device profile es).Pairwise fun a b => a.1.word < b.1.word := by
  induction es with
  | nil => simp [place]
  | cons e es ih =>
    have ⟨he, hes⟩ := List.pairwise_cons.1 h
    rw [place]
    split
    · rename_i hlt
      refine List.pairwise_cons.2 ⟨fun d hd => ?_, h⟩
      rcases List.mem_cons.1 hd with rfl | hd
      · exact hlt
      · exact UInt32.lt_trans hlt (he d hd)
    · rename_i hle
      split
      · rename_i heq
        exact List.pairwise_cons.2 ⟨fun d hd => heq ▸ he d hd, hes⟩
      · rename_i hne
        refine List.pairwise_cons.2 ⟨fun d hd => ?_, ih hes⟩
        rcases mem_place hd with rfl | hd
        · refine UInt32.lt_of_le_of_ne (UInt32.not_lt.1 hle) fun hw => hne ?_
          cases device
          cases e with | mk d p => cases d; simp_all
        · exact he d hd

theorem find?_place {device d : DeviceIndex} {profile : DeviceProfile} {es : List DeviceEntry} :
    (place device profile es).find? (·.1 = d) =
      if device = d then some (device, profile) else es.find? (·.1 = d) := by
  induction es with
  | nil => by_cases h : device = d <;> simp [place, h]
  | cons e es ih =>
    rw [place]
    by_cases h : device = d <;> by_cases he : e.1 = d <;> grind

/-- The configuration with this profile for this device. -/
def insert (c : Config) (device : DeviceIndex) (profile : DeviceProfile) : Config :=
  ⟨place device profile c.entries, sorted_place c.sorted⟩

theorem find?_insert {c : Config} {device d : DeviceIndex} {profile : DeviceProfile} :
    (c.insert device profile).find? d = if device = d then some profile else c.find? d := by
  unfold find? insert
  rw [find?_place]
  split <;> rfl

/-- Entries inserted one after the other: of two for a device the later one counts. -/
def ofList (es : List DeviceEntry) : Config :=
  es.foldl (fun c e => c.insert e.1 e.2) {}

/-- A configuration is fit for use if it has a device and no device's limits have a
flaw; the error names the first device at fault. -/
def check (c : Config) : Except Error Unit :=
  if c.entries.isEmpty then .error (.missingLimits ⟨0⟩)
  else c.entries.forM fun e => e.2.limits.check e.1

end Config

end FrameSchedule
