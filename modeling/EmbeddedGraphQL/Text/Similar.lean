/-!
Names similar to a given one, for suggestions. Similarity is the number of edits between two names
in lower case, where an edit inserts, deletes or changes a letter or swaps two neighbours. Equally
similar names are in natural order, in which runs of digits count as numbers.
-/
namespace EmbeddedGraphQL.Text

/-- The row of edit distances for one more letter `a` of the first name: entry `j` is the distance
to the first `j` letters of `b`. The two rows above belong to the name without its last letter and
without its last two, of which `previous` is the later one. -/
def nextRow (a : Char) (previous : Option Char) (b : Array Char) (above twoAbove : Array Nat) :
    Array Nat :=
  (List.range b.size).foldl (fun row j =>
    let change := above.getD j 0 + if some a = b[j]? then 0 else 1
    let nearest := min (min (above.getD (j + 1) 0 + 1) (row.getD j 0 + 1)) change
    let swaps := 1 ≤ j && b[j - 1]? == some a && previous.isSome && previous == b[j]?
    row.push (if swaps then min nearest (twoAbove.getD (j - 1) 0 + 1) else nearest))
    #[above.getD 0 0 + 1]

/-- The number of edits between two names. -/
def editDistance (a b : List Char) : Nat :=
  let target := b.toArray
  let start : Option Char × Array Nat × Array Nat :=
    (none, Array.range (target.size + 1), #[])
  let (_, last, _) := a.foldl (fun (previous, above, twoAbove) letter =>
    (some letter, nextRow letter previous target above twoAbove, above)) start
  last.getD target.size 0

/-- The distance between names, in which case counts as one edit however many letters differ. -/
def nameDistance (a b : String) : Nat :=
  let lowerA := a.toList.map Char.toLower
  let lowerB := b.toList.map Char.toLower
  if a == b then 0 else if lowerA == lowerB then 1 else editDistance lowerA lowerB

/-- A name as letters and numbers in turn; the last part has no number. -/
def naturalParts : Nat → List Char → List (List Char × Option (Nat × List Char))
  | 0, _ => []
  | fuel + 1, text =>
    let letters := text.takeWhile (!·.isDigit)
    let rest := text.dropWhile (!·.isDigit)
    let digits := rest.takeWhile Char.isDigit
    if digits.isEmpty then [(letters, none)]
    else
      let number := digits.foldl (fun n c => 10 * n + (c.toNat - 48)) 0
      (letters, some (number, digits)) :: naturalParts fuel (rest.dropWhile Char.isDigit)

/-- The order of characters, a text before its continuations. -/
def compareChars : List Char → List Char → Ordering
  | [], [] => .eq
  | [], _ :: _ => .lt
  | _ :: _, [] => .gt
  | a :: as, b :: bs => (compare a.val b.val).then (compareChars as bs)

def compareParts :
    List (List Char × Option (Nat × List Char)) → List (List Char × Option (Nat × List Char)) →
      Ordering
  | [], [] => .eq
  | [], _ :: _ => .lt
  | _ :: _, [] => .gt
  | (a, numberA) :: as, (b, numberB) :: bs =>
    let numbers : Ordering := match numberA, numberB with
      | none, none => .eq
      | none, some _ => .lt
      | some _, none => .gt
      | some (m, digitsM), some (n, digitsN) => (compare m n).then (compareChars digitsM digitsN)
    ((compareChars a b).then numbers).then (compareParts as bs)

/-- The natural order of names. -/
def naturalCompare (a b : String) : Ordering :=
  compareParts (naturalParts (a.length + 1) a.toList) (naturalParts (b.length + 1) b.toList)

/-- Of some names without repetitions, those similar to a given one, most similar ones first. A
name of five letters may differ by three edits, and each five letters more allow two more. -/
def similar (name : String) (options : List String) : List String :=
  let limit := 2 * name.length / 5 + 1
  let near := options.eraseDups.filterMap fun option =>
    let distance := nameDistance name option
    if distance ≤ limit then some (distance, option) else none
  let sorted := near.mergeSort fun a b =>
    a.1 < b.1 || (a.1 == b.1 && naturalCompare a.2 b.2 != .gt)
  sorted.map (·.2)

end EmbeddedGraphQL.Text
