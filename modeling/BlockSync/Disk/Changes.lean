import BlockSync.Disk

/-! What is different between two states of a disk. -/

namespace BlockSync.Disk

/-- What stands now at the places where something else stood before, places of directories first
among those below them. -/
def changes (before after : Disk) : List (Place × Option Entry) :=
  let gone := before.entries.keys.filter fun place => (after.entries.find? place).isNone
  let new := after.entries.entries.filter fun e => before.entries.find? e.1 != some e.2
  gone.reverse.map (·, none) ++ new.map fun e => (e.1, some e.2)

end BlockSync.Disk
