/-
What can go wrong, by cause, and the wording of each cause.

A store, a lock or a file fails with an `Error`. Readers and writers used as byte streams fail with a `StreamError`:
`Error.toStream` keeps a stream failure as it is, turns a missing file into the stream's own kind, and wraps the rest
with their text; `Error.stream` takes a stream failure back.
-/
import RowFiles.Text.Utf8

namespace RowFiles

/-! ## Stream failures -/

inductive StreamKind where
  | notFound | invalidInput | unexpectedEnd | other
deriving DecidableEq, Repr

/-- a failure of a byte stream -/
structure StreamError where
  kind : StreamKind
  text : String
deriving DecidableEq, Repr

/-- a position before the start of a file, or past the last 64-bit one, was sought -/
def StreamError.seekRange : StreamError := ⟨.invalidInput, "seek before start of file"⟩

/-- a stream ended before a buffer was full -/
def StreamError.ended : StreamError := ⟨.unexpectedEnd, "failed to fill whole buffer"⟩

/-! ## Causes -/

/-- why a copy cannot be made by moving a link -/
inductive LinkRefusal where
  | disabled
  | notLinked
  | widthsDiffer (source dest : Nat)
  | other (text : String)
deriving DecidableEq, Repr

def LinkRefusal.text : LinkRefusal → String
  | .disabled => "fast copy disabled"
  | .notLinked => "store is not translated"
  | .widthsDiffer a b => "column sizes differ: " ++ toString a ++ " vs " ++ toString b
  | .other text => text

/-- why stored bytes mean nothing -/
inductive DataFault where
  | linkNotText (key : String) (fault : Utf8.Fault)
  | shortLength (key : String) (size : Nat)
  | listingNotText (fault : Utf8.Fault)
  | other (text : String)
deriving DecidableEq, Repr

def DataFault.text : DataFault → String
  | .linkNotText key fault => "translation for " ++ key ++ " is not utf-8: " ++ fault.message
  | .shortLength key size => "length cell for " ++ key ++ " has " ++ toString size ++ " bytes"
  | .listingNotText fault => "key list entry is not utf-8: " ++ fault.message
  | .other text => text

/-- why a request does not fit what it was made of -/
inductive StateFault where
  | notEnumerable
  /-- a periodic task ended without returning -/
  | taskLost
  | other (text : String)
deriving DecidableEq, Repr

def StateFault.text : StateFault → String
  | .notEnumerable => "translated stores cannot enumerate logical keys"
  | .taskLost => "Task join error"
  | .other text => text

/-- why settings are refused -/
inductive SettingFault where
  | zeroWidth
  | zeroShards
  | emptyDelimiter
  | other (text : String)
deriving DecidableEq, Repr

def SettingFault.text : SettingFault → String
  | .zeroWidth => "column size must be non-zero"
  | .zeroShards => "splits must be positive"
  | .emptyDelimiter => "delimiter must not be empty"
  | .other text => text

/-! ## Errors -/

inductive Error where
  | stream (e : StreamError)
  /-- no length is recorded for the named file -/
  | notFound (name : String)
  /-- the backing store could not complete the call; nothing here tries again -/
  | backend (reason : String)
  | fastCopy (why : LinkRefusal)
  | data (why : DataFault)
  | state (why : StateFault)
  | setting (why : SettingFault)
  /-- a buffer longer than memory can address was asked for, or a number came out that has more than 64 bits -/
  | tooLarge
deriving DecidableEq, Repr

namespace Error

def message : Error → String
  | .stream e => "I/O error: " ++ e.text
  | .notFound name => "No such file: " ++ name
  | .backend reason => "Backend unavailable: " ++ reason
  | .fastCopy why => "Fast copy not possible: " ++ why.text
  | .data why => "Invalid data: " ++ why.text
  | .state why => "Invalid state: " ++ why.text
  | .setting why => "Invalid config: " ++ why.text
  | .tooLarge => "Too large"

def isNotFound : Error → Bool
  | .notFound _ => true
  | _ => false

/-- the failure that a byte stream shows for an error -/
def toStream : Error → StreamError
  | .stream e => e
  | .notFound name => ⟨.notFound, name⟩
  | e => ⟨.other, e.message⟩

/-- the failure an error was made from, if it was made from one -/
def cause : Error → Option StreamError
  | .stream e => some e
  | _ => none

end Error

/-- the kinds of error that a caller can tell apart -/
inductive ErrorKind where
  | stream | notFound | backend | fastCopy | data | state | setting
deriving DecidableEq, Repr

/-- an error of a kind, with a text from outside -/
def ErrorKind.error (text : String) : ErrorKind → Error
  | .stream => .stream ⟨.other, text⟩
  | .notFound => .notFound text
  | .backend => .backend text
  | .fastCopy => .fastCopy (.other text)
  | .data => .data (.other text)
  | .state => .state (.other text)
  | .setting => .setting (.other text)

/-- the longest buffer, in bytes, that can be asked for -/
def longestBuffer : Nat := UInt64.size / 2 - 1

end RowFiles
