import BlockSync.Command

/-! Commands as arguments. Options may stand on both sides of the command's name, some of them only
behind it; behind two hyphens everything is a path. -/

namespace BlockSync.Command

inductive Switch
  | verbose
  | json
  | allowEmptyTags
  | migrateAll
  | dryRun
  | help
  | version
deriving DecidableEq, Repr

inductive Setting
  | config
  | includes
  | excludes
  | comment
  | rootMarker
  | migrate
  | readCache
  | writeCache
deriving DecidableEq, Repr

inductive Item
  | switch (s : Switch)
  | setting (s : Setting) (value : Text)
  | path (value : Text)
deriving DecidableEq, Repr

/-- Where on the line options stand. -/
inductive Level
  | top
  | check
  | fix
deriving DecidableEq, Repr

/-- One option of an argument; the value of a setting may be the next argument. -/
inductive Piece
  | switch (s : Switch)
  | setting (s : Setting) (value? : Option Text)
  | unknown
deriving DecidableEq, Repr

def commonNames : List (Text × Piece) :=
  [("verbose", .switch .verbose), ("config", .setting .config none), ("json", .switch .json),
   ("help", .switch .help)]

def scanNames : List (Text × Piece) :=
  [("include", .setting .includes none), ("exclude", .setting .excludes none),
   ("comment", .setting .comment none), ("root-marker", .setting .rootMarker none),
   ("allow-empty-tags", .switch .allowEmptyTags), ("migrate", .setting .migrate none),
   ("migrate-all", .switch .migrateAll), ("read-cache", .setting .readCache none),
   ("write-cache", .setting .writeCache none)]

/-- The option of a name, without a value. -/
def Level.long (level : Level) (name : Text) : Piece :=
  let own : List (Text × Piece) :=
    match level with
    | .top => [("version", .switch .version)]
    | .check => scanNames
    | .fix => ("dry-run", .switch .dryRun) :: scanNames
  ((commonNames ++ own).lookup name).getD .unknown

/-- The option of a letter, without a value. -/
def Level.short (level : Level) (c : Char) : Piece :=
  if c = 'v' then .switch .verbose
  else if c = 'c' then .setting .config none
  else if c = 'h' then .switch .help
  else if c = 'V' ∧ level = .top then .switch .version
  else .unknown

/-- Letters behind one hyphen. A setting takes what follows, without an equals sign. -/
def Level.letters (level : Level) : Text → List Piece
  | [] => []
  | c :: rest =>
    match level.short c with
    | .setting s _ =>
      let value? := if rest = [] then none else some ((Text.after? "=" rest).getD rest)
      [.setting s value?]
    | piece => piece :: level.letters rest

def Level.pieces (level : Level) (argument : Text) : List Piece :=
  match Text.after? "--" argument with
  | none => level.letters (argument.drop 1)
  | some written =>
    match Text.cutFirst '=' written with
    | none => [level.long written]
    | some (name, value) =>
      match level.long name with
      | .setting s _ => [.setting s (some value)]
      | _ => [.unknown]

def mapping? (value : Text) : Option Mapping :=
  match Text.cutFirst '=' value with
  | some (c :: source, destination) => some ⟨c :: source, destination⟩
  | _ => none

def Setting.repeats : Setting → Bool
  | .includes => true
  | .excludes => true
  | .comment => true
  | .migrate => true
  | _ => false

def Setting.fits (s : Setting) (value : Text) : Bool :=
  match s with
  | .config => !value.isEmpty
  | .readCache => !value.isEmpty
  | .writeCache => !value.isEmpty
  | .migrate => (mapping? value).isSome
  | _ => true

def Item.isSetting (s : Setting) : Item → Bool
  | .setting t _ => s = t
  | _ => false

/-- Why there is no command. -/
inductive Stop
  | help
  | refused
deriving DecidableEq, Repr

/-- Adds an item. No switch is given twice, and few settings are; asking for help ends it all. -/
def add (given : List Item) (item : Item) : Except Stop (List Item) :=
  let fits :=
    match item with
    | .switch _ => !given.contains item
    | .setting s value => s.fits value && (s.repeats || !given.any (·.isSetting s))
    | .path value => !value.isEmpty
  if item = .switch .help ∨ item = .switch .version then .error .help
  else if fits then .ok (given ++ [item])
  else .error .refused

def addAll : List Item → List Item → Except Stop (List Item)
  | given, [] => .ok given
  | given, item :: more =>
    match add given item with
    | .ok given => addAll given more
    | .error stop => .error stop

/-- Adds options, and tells which setting still waits for its value. -/
def addPieces : List Item → List Piece → Except Stop (List Item × Option Setting)
  | given, [] => .ok (given, none)
  | given, piece :: more =>
    match piece with
    | .unknown => .error .refused
    | .setting s none => .ok (given, some s)
    | .setting s (some value) =>
      match add given (.setting s value) with
      | .ok given => addPieces given more
      | .error stop => .error stop
    | .switch s =>
      match add given (.switch s) with
      | .ok given => addPieces given more
      | .error stop => .error stop

def isOption (argument : Text) : Bool :=
  argument.head? == some '-' && argument != ['-']

def readItems (level : Level) : List Item → List Text → Except Stop (List Item)
  | given, [] => .ok given
  | given, argument :: rest =>
    if argument = "--" then addAll given (rest.map .path)
    else if isOption argument then
      match addPieces given (level.pieces argument) with
      | .error stop => .error stop
      | .ok (given, none) => readItems level given rest
      | .ok (given, some s) =>
        match rest with
        | [] => .error .refused
        | value :: rest =>
          if isOption value then .error .refused
          else
            match add given (.setting s value) with
            | .ok given => readItems level given rest
            | .error stop => .error stop
    else
      match add given (.path argument) with
      | .ok given => readItems level given rest
      | .error stop => .error stop

def Level.ofName? (name : Text) : Option Level :=
  if name = "check" then some .check else if name = "fix" then some .fix else none

structure Line where
  above : List Item
  level : Level
  below : List Item

/-- The whole line. A setting in front of the command's name whose value is an argument of its own
is held back until the next option or the end of the line. -/
def readLine : List Item → List Item → List Text → Except Stop Line
  | _, _, [] => .error .refused
  | given, held, argument :: rest =>
    match Level.ofName? argument with
    | some level =>
      match readItems level [] rest with
      | .error stop => .error stop
      | .ok below =>
        match addAll given held with
        | .error stop => .error stop
        | .ok above => .ok ⟨above, level, below⟩
    | none =>
      if argument = "help" then
        if rest ∈ ([[], ["check"], ["fix"], ["help"]] : List (List Text)) then .error .help
        else .error .refused
      else if argument = "--" ∨ !isOption argument then .error .refused
      else
        match addAll given held with
        | .error stop => .error stop
        | .ok given =>
          match addPieces given (Level.top.pieces argument) with
          | .error stop => .error stop
          | .ok (given, none) => readLine given [] rest
          | .ok (given, some s) =>
            match rest with
            | [] => .error .refused
            | value :: rest =>
              if isOption value then .error .refused
              else readLine given [.setting s value] rest

def Item.valueOf? (s : Setting) : Item → Option Text
  | .setting t value => if s = t then some value else none
  | _ => none

def Item.path? : Item → Option Text
  | .path value => some value
  | _ => none

namespace Line

def has (line : Line) (s : Switch) : Bool :=
  line.above.contains (.switch s) || line.below.contains (.switch s)

def values (line : Line) (s : Setting) : List Text :=
  line.below.filterMap (·.valueOf? s)

def value? (line : Line) (s : Setting) : Option Text :=
  (line.values s).head?

/-- The configuration file, the one behind the command's name first. -/
def config? (line : Line) (preset : Option Text) : Option Text :=
  ((line.value? .config).or (line.above.findSome? (·.valueOf? .config))).or preset

/-- A cache is not read and written at once. An empty preset for the configuration file is in the
way unless the line names a file on both sides. -/
def isSound (line : Line) (preset : Option Text) : Bool :=
  !((line.value? .readCache).isSome && (line.value? .writeCache).isSome) &&
    (preset != some [] ||
      line.above.any (·.isSetting .config) && line.below.any (·.isSetting .config))

def command (line : Line) (preset : Option Text) : Command where
  fix := if line.level = .fix then some (line.has .dryRun) else none
  verbose := line.has .verbose
  json := line.has .json
  config? := line.config? preset
  paths :=
    match line.below.filterMap Item.path? with
    | [] => ["."]
    | paths => paths
  includes := line.values .includes
  excludes := line.values .excludes
  comments := line.values .comment
  rootMarker? := line.value? .rootMarker
  allowEmptyTags := line.has .allowEmptyTags
  migrations := (line.values .migrate).filterMap mapping?
  migrateAll := line.has .migrateAll
  readCache? := line.value? .readCache
  writeCache? := line.value? .writeCache

end Line

/-- The command that the arguments make. `preset` is the configuration file of the environment. -/
def ofArguments (preset : Option Text) (arguments : List Text) : Except Stop Command :=
  match readLine [] [] arguments with
  | .error stop => .error stop
  | .ok line => if line.isSound preset then .ok (line.command preset) else .error .refused

end BlockSync.Command
