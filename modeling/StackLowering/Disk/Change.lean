import StackLowering.Disk.Volume
/-! What differs between a volume before and after. -/
namespace StackLowering.Disk.Volume

def written (before after : Volume) : List (Place × Entry) :=
  after.entries.filter fun (place, entry) => before.get? place != some entry

def removed (before after : Volume) : List Place :=
  before.entries.filterMap fun (place, _) =>
    if (after.get? place).isSome then none else some place

end StackLowering.Disk.Volume
