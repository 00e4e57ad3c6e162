/-!
# Files — Problem

Why a file cannot be read or a path cannot be changed, and what the system says about it.
-/

namespace SchemaEnums.Files

/-- A refusal of the file system. -/
inductive Problem where
  | notFound
  | exists
  | notDirectory
  | isDirectory
  | busy
  | notText
  /-- Anything else, as the system words and numbers it. -/
  | system (reason : String) (number : Nat)
deriving Repr, DecidableEq

/-- The wording of a refusal. -/
def Problem.message : Problem → String
  | notFound     => "No such file or directory (os error 2)"
  | .exists      => "File exists (os error 17)"
  | notDirectory => "Not a directory (os error 20)"
  | isDirectory  => "Is a directory (os error 21)"
  | busy         => "Device or resource busy (os error 16)"
  | notText      => "stream did not contain valid UTF-8"
  | system reason number => reason ++ " (os error " ++ toString number ++ ")"

end SchemaEnums.Files
