/-!
# Why a path cannot be used
-/

namespace Pinflow

inductive PathFault where
  | missing
  /-- There is something at the path already. -/
  | taken
  /-- The path goes on below a file. -/
  | notDirectory
  | isDirectory
  | tooLong
  | zeroByte
  /-- Another reason, in the words of the host. -/
  | refused (reason : String)

def PathFault.message : PathFault → String
  | missing => "No such file or directory (os error 2)"
  | taken => "File exists (os error 17)"
  | notDirectory => "Not a directory (os error 20)"
  | isDirectory => "Is a directory (os error 21)"
  | tooLong => "File name too long (os error 36)"
  | zeroByte => "file name contained an unexpected NUL byte"
  | refused reason => reason

end Pinflow
