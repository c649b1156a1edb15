import ChannelCodec.CommandLine.Session

/-! Files in memory: the files below a directory that a session starts in. Paths are followed
component by component, and nothing is known of the world outside the directory but that it
is there. -/
namespace ChannelCodec

/-- The files below a directory, by the components of their paths. -/
structure Directory where
  files : List (List String × String) := []
deriving DecidableEq, Repr

namespace Directory

inductive PathError where
  | missing
  | notADirectory
  | isADirectory
  | nameTooLong
deriving DecidableEq, Repr

def PathError.text : PathError → String
  | .missing => "No such file or directory (os error 2)"
  | .notADirectory => "Not a directory (os error 20)"
  | .isADirectory => "Is a directory (os error 21)"
  | .nameTooLong => "File name too long (os error 36)"

inductive Place where
  /-- A directory at or below the start. -/
  | directory (components : List String)
  | file (components : List String)
  /-- A directory that is not below the start. -/
  | outside
deriving DecidableEq, Repr

def components (path : String) : List String := (path.toList.splitOn '/').map String.ofList

def content? (d : Directory) (path : List String) : Option String :=
  (d.files.find? (·.1 = path)).map (·.2)

def isDirectory (d : Directory) (path : List String) : Bool :=
  d.files.any fun f => path.length < f.1.length && path.isPrefixOf f.1

def put (d : Directory) (path : List String) (content : String) : Directory :=
  if (d.content? path).isSome then
    ⟨d.files.map fun f => if f.1 = path then (path, content) else f⟩
  else ⟨d.files ++ [(path, content)]⟩

def ofList (files : List (String × String)) : Directory :=
  files.foldl (fun d f => d.put (components f.1) f.2) {}

def step (d : Directory) (component : String) : Place → Except PathError Place
  | .file _ => .error .notADirectory
  | .outside =>
    if component = "" ∨ component = "." ∨ component = ".." then .ok .outside else .error .missing
  | .directory path =>
    if component = "" ∨ component = "." then .ok (.directory path)
    else if component = ".." then
      .ok (if path = [] then .outside else .directory path.dropLast)
    else
      let next := path ++ [component]
      if 255 < component.utf8ByteSize then .error .nameTooLong
      else if (d.content? next).isSome then .ok (.file next)
      else if d.isDirectory next then .ok (.directory next)
      else .error .missing

def follow (d : Directory) (path : List String) : Except PathError Place :=
  path.foldlM (fun place component => d.step component place)
    (if path.head? = some "" then .outside else .directory [])

def read (d : Directory) (path : String) : Except PathError String :=
  if path = "" then .error .missing
  else if 4096 ≤ path.utf8ByteSize then .error .nameTooLong
  else do
    match ← d.follow (components path) with
    | .file place => return (d.content? place).getD ""
    | _ => throw .isADirectory

/-- Where a file with the given path would be. A file outside the directory has no place. A path
that ends with a slash cannot be that of a file, and its last component need not exist. -/
def locate (d : Directory) (path : String) : Except PathError (Option (List String)) :=
  if path = "" then .error .missing
  else if 4096 ≤ path.utf8ByteSize then .error .nameTooLong
  else do
    let names := ((components path).reverse.dropWhile (· = "")).reverse
    let last := names.getLast?.getD ""
    let parent ← d.follow (if names = [] then [""] else names.dropLast)
    let special := last = "" ∨ last = "." ∨ last = ".."
    match parent with
    | .file _ => throw .notADirectory
    | .outside =>
      if special ∨ (components path).getLast? = some "" then throw .isADirectory
      return none
    | .directory start =>
      if special ∨ (components path).getLast? = some "" ∨ d.isDirectory (start ++ [last]) then
        throw .isADirectory
      if 255 < last.utf8ByteSize then throw .nameTooLong
      return some (start ++ [last])

def write (d : Directory) (path content : String) : Except PathError Directory := do
  match ← d.locate path with
  | some place => return d.put place content
  | none => return d

def access : FileAccess (StateM Directory) where
  read path := return ((← get).read path).mapError PathError.text
  clear path := overwrite path ""
  write := overwrite
where
  overwrite (path content : String) : StateM Directory (Except String Unit) := do
    match (← get).write path content with
    | .ok d =>
      set d
      return .ok ()
    | .error e => return .error e.text

def session (d : Directory) (arguments : List String) : Outcome × Directory :=
  (Session.run access arguments).run d

theorem content?_put_self (d : Directory) (path : List String) (content : String) :
    (d.put path content).content? path = some content := by
  obtain ⟨files⟩ := d
  unfold put content?
  split
  · next h =>
    replace h : ((files.find? (·.1 = path)).map (·.2)).isSome = true := h
    simp only [Option.isSome_map] at h
    show ((files.map _).find? _).map _ = _
    induction files with
    | nil => simp at h
    | cons f files ih =>
      by_cases hf : f.1 = path
      · simp [hf]
      · simp [hf] at h ih ⊢
        obtain ⟨_, h⟩ := h
        simpa using ih _ h
  · next h =>
    have h : files.find? (·.1 = path) = none := by
      simp only [Option.isSome_map, Bool.not_eq_true, Option.isSome_eq_false_iff,
        Option.isNone_iff_eq_none] at h
      exact h
    simp [List.find?_append, h]

end Directory
end ChannelCodec
