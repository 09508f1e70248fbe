import BlockSync.Command.Execute

/-! The paths that a command looks at. The better the disk is known, the more of them are known. -/

namespace BlockSync.Command

def references (d : Disk) (o : Options) (paths : List Path) : List Path :=
  match Run.scan? d o paths with
  | .ok (some cache) =>
    cache.values.flatMap fun info =>
      info.markers.values.flatMap fun marker =>
        marker.targets.values.filterMap fun target => target.kind.path?.map .ofText
  | _ => []

def demands (c : Command) (d : Disk) (cwd : Path) : List Path :=
  let named := (c.config?.toList ++ c.readCache?.toList ++ c.paths).map (absolute cwd)
  match c.options d cwd with
  | .error _ => named
  | .ok o =>
    named ++ o.ignoreFiles.map (absolute cwd) ++ (o.cache.map Prod.fst).toList ++
      references d o (c.paths.map (absolute cwd))

end BlockSync.Command
