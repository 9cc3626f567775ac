/-!
Why a file operation fails, and the words for it.
-/

namespace KeyChart

inductive Fault
  | notFound
  | accessDenied
  | notDirectory
  | isDirectory
  | noSpace
  | nameTooLong
  | nulInName
  | linkLoop
  | invalidText
  | other (text : String)
  deriving DecidableEq, Repr

namespace Fault

def message : Fault → String
  | notFound => "No such file or directory (os error 2)"
  | accessDenied => "Permission denied (os error 13)"
  | notDirectory => "Not a directory (os error 20)"
  | isDirectory => "Is a directory (os error 21)"
  | noSpace => "No space left on device (os error 28)"
  | nameTooLong => "File name too long (os error 36)"
  | nulInName => "file name contained an unexpected NUL byte"
  | linkLoop => "Too many levels of symbolic links (os error 40)"
  | invalidText => "stream did not contain valid UTF-8"
  | other text => text

end Fault
end KeyChart
