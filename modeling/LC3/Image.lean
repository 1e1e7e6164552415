import LC3.Fault
import LC3.Memory

/-!
# Program images

An image file is a string of bytes: 16-bit words, upper byte first, of which the first is the load
origin and the rest is the payload. `Image.ofBytes?` reads the format and `Image.toBytes` writes it.
A file that is not in the format has one of three defects; where several apply, the one that shows
first in the reading order is named.
-/

namespace LC3

/-- Words and the address of the first of them. -/
structure Image where
  /-- Where the first word goes. -/
  origin : Word
  /-- The words, in address order. -/
  words : List Word
  deriving DecidableEq

/-- What is wrong with a string of bytes that is no image. -/
inductive ImageDefect where
  /-- There are not even two bytes. -/
  | missingOrigin
  /-- The last word has only one byte. -/
  | oddLength (bytes : Nat)
  /-- The words do not fit between the origin and the end of memory. -/
  | pastEnd
  deriving DecidableEq, Repr

/-- The words for a message about a defect. -/
def ImageDefect.reason : ImageDefect → String
  | missingOrigin => "missing origin word"
  | oddLength bytes => "odd byte length " ++ toString bytes
  | pastEnd => "image runs past the end of memory"

/-- A value that stands where an error should: whoever reads files may raise anything. -/
inductive Raised where
  | text (s : String)
  /-- A number that is small enough for its digits to be its text. -/
  | number (n : Int) (small : n.natAbs ≤ Precision.limit)
  | flag (b : Bool)
  | nothing
  /-- A value of any other kind, known by its text. -/
  | other (text : String)
  /-- A value without a text: whoever asks for it comes to the fault `f`. -/
  | textless (f : Fault)
  deriving DecidableEq, Repr

/-- The text of a value, or what asking for it comes to. -/
def Raised.text? : Raised → Except Fault String
  | text s => .ok s
  | number n _ => .ok (toString n)
  | flag b => .ok (if b then "true" else "false")
  | nothing => .ok "null"
  | other s => .ok s
  | textless f => .error f

/-- How reading a file can fail. -/
inductive ReadFailure where
  | error (message : String)
  | raised (value : Raised)
  deriving DecidableEq, Repr

/-- What a failure to read the file at `path` is passed on as. The words for it are the message of
an error or the text of a value, and a value without a text leaves the fault of asking for it. -/
def ReadFailure.fault (path : String) : ReadFailure → Fault
  | error message => .imageLoad path message
  | raised value =>
    match value.text? with
    | .ok text => .imageLoad path text
    | .error f => f

/-- Something that gives the bytes of a file, or fails. It need not do the same whenever it is
asked, so it is told which files it was asked for before, the first of them first. -/
abbrev FileReader := List String → String → Except ReadFailure (List UInt8)

/-- A reader that has been asked for some files. -/
def FileReader.behind (files : FileReader) (earlier : List String) : FileReader := fun later =>
  files (earlier ++ later)

namespace Image

/-! ## The format -/

/-- Reads bytes in pairs, upper byte first, behind words already read. A last byte without a partner
is dropped. -/
def pairUp (done : Array Word) : List UInt8 → Array Word
  | upper :: lower :: rest => pairUp (done.push (.ofBytes upper lower)) rest
  | _ => done

/-- Reads an image. -/
def ofBytes? : List UInt8 → Except ImageDefect Image
  | upper :: lower :: payload =>
    if payload.length % 2 = 1 then
      .error (.oddLength (payload.length + 2))
    else
      let origin := Word.ofBytes upper lower
      if origin.toNat + payload.length / 2 > Memory.size then
        .error .pastEnd
      else
        .ok ⟨origin, (pairUp #[] payload).toList⟩
  | _ => .error .missingOrigin

/-- The two bytes of a word, upper byte first. -/
def bytesOfWord (w : Word) : List UInt8 := [w.high, w.low]

/-- Writes an image. -/
def toBytes (image : Image) : List UInt8 :=
  bytesOfWord image.origin ++ image.words.flatMap bytesOfWord

theorem toList_pairUp : ∀ (done : Array Word) (bytes : List UInt8),
    (pairUp done bytes).toList = done.toList ++ (pairUp #[] bytes).toList
  | done, upper :: lower :: rest => by
    rw [pairUp, pairUp, toList_pairUp (done.push _) rest, toList_pairUp (#[].push _) rest]
    simp
  | done, [] => by simp [pairUp]
  | done, [_] => by simp [pairUp]

theorem toList_pairUp_cons_cons (upper lower : UInt8) (rest : List UInt8) :
    (pairUp #[] (upper :: lower :: rest)).toList =
      .ofBytes upper lower :: (pairUp #[] rest).toList := by
  rw [pairUp, toList_pairUp]
  simp

/-! ## Files -/

/-- The name of an image that comes from no file. -/
def unnamed : String := "<memory>"

/-- Reads the image that the bytes of the file at `path` make up. -/
def parse (path : String) (bytes : List UInt8) : Except Fault Image :=
  match ofBytes? bytes with
  | .ok image => .ok image
  | .error defect => .error (.imageLoad path defect.reason)

/-- Reads the image in a file. -/
def open? (files : FileReader) (path : String) : Except Fault Image :=
  match files [] path with
  | .ok bytes => parse path bytes
  | .error failure => .error (failure.fault path)

end Image

end LC3
