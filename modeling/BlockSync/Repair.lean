import BlockSync.Diagnostic
import BlockSync.Disk.Writer
import BlockSync.Failure

/-! Repairing a file. A fix applies to the line that it names, if that line still reads as it did;
a file is only replaced if every fix applies. -/

namespace BlockSync.Repair

/-- Fixes by the line text that they apply to, those of one text in line order. -/
abbrev Queues := List (Text × List Fix)

def enqueue (queues : Queues) (fix : Fix) : Queues :=
  match queues with
  | [] => [(fix.declaration, [fix])]
  | (text, queue) :: rest =>
    if text = fix.declaration then (text, queue ++ [fix]) :: rest
    else (text, queue) :: enqueue rest fix

def index (fixes : List Fix) : Queues :=
  (fixes.mergeSort fun a b => a.line ≤ b.line).foldl enqueue []

/-- The fixes of one line, taken from the front of its queue behind those of earlier lines. -/
def dequeue (number : Nat) (queue : List Fix) : List Fix × List Fix :=
  let current := queue.dropWhile (·.line < number)
  (current.takeWhile (·.line == number), current.dropWhile (·.line == number))

def matching (queues : Queues) (number : Nat) (text : Text) : List Fix × Queues :=
  match queues with
  | [] => ([], [])
  | (key, queue) :: rest =>
    if key = text then
      let (matched, left) := dequeue number queue
      (matched, (key, left) :: rest)
    else
      let (matched, rest) := matching rest number text
      (matched, (key, queue) :: rest)

/-- A line with its fixes. A deletion wins, and of several replacements the first. -/
def rewriteLine (matched : List Fix) (line : Line) : Text :=
  if matched.any Fix.isDelete then []
  else
    match matched.head? with
    | some (.replace _ text _ _) => text ++ line.terminator
    | _ => line.raw

/-- How many fixes applied, and the new text. -/
structure Rewritten where
  applied : Nat
  output : Text
deriving DecidableEq, Repr

def rewriteFrom (queues : Queues) (number : Nat) : List Line → Rewritten
  | [] => ⟨0, []⟩
  | line :: rest =>
    let (matched, queues) := matching queues number line.text
    let more := rewriteFrom queues (number + 1) rest
    ⟨matched.length + more.applied, rewriteLine matched line ++ more.output⟩

def rewrite (lines : List Line) (fixes : List Fix) : Rewritten :=
  rewriteFrom (index fixes) 1 lines

/-- Applies all fixes to a file, or none. A dry run only tells whether they apply. -/
def apply (d : Disk) (path : Path) (fixes : List Fix) (dryRun : Bool) :
    Except Failure Nat × Disk :=
  match d.lines path with
  | .error cause => (.error (.refused ⟨path.text, cause⟩), d)
  | .ok (lines, fault) =>
    let rewritten := rewrite lines fixes
    let stale := Failure.staleFixes path.text fixes.length rewritten.applied
    if dryRun then
      match fault with
      | some cause => (.error (.refused ⟨path.text, cause⟩), d)
      | none =>
        if rewritten.applied = fixes.length then (.ok rewritten.applied, d) else (.error stale, d)
    else
      match Disk.Writer.create d path with
      | (.error refusal, d) => (.error (.refused refusal), d)
      | (.ok writer, d) =>
        let d := writer.write d (Text.Utf8.encode rewritten.output)
        match fault with
        | some cause => (.error (.refused ⟨path.text, cause⟩), writer.drop d)
        | none =>
          if rewritten.applied = fixes.length then
            match writer.commit d with
            | (.error refusal, d) => (.error (.refused refusal), d)
            | (.ok (), d) => (.ok rewritten.applied, d)
          else (.error stale, writer.drop d)

end BlockSync.Repair
