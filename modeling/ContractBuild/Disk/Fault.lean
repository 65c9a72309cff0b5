/-!
Failures of the file system and of running programs.
-/

namespace ContractBuild.Disk

inductive Fault where
  /-- An error number of the operating system. -/
  | os (code : Nat)
  /-- A failure with a text of its own. -/
  | other (text : String)
  deriving DecidableEq

def Fault.message : Fault → String
  | .os code => s!"<os error {code}>"
  | .other text => text

def Fault.notPermitted : Fault := .os 1

def Fault.notFound : Fault := .os 2

/-- What is neither a file nor a directory cannot be opened as a file. -/
def Fault.noDevice : Fault := .os 6

def Fault.accessDenied : Fault := .os 13

def Fault.exists : Fault := .os 17

def Fault.notDirectory : Fault := .os 20

def Fault.isDirectory : Fault := .os 21

def Fault.nameTooLong : Fault := .os 36

def Fault.nulInName : Fault := .other "file name contained an unexpected NUL byte"

/-- What was to be copied is not a file. -/
def Fault.notFile : Fault :=
  .other "the source path is neither a regular file nor a symlink to a regular file"

/-- A file was read as text and is not UTF-8. -/
def Fault.notText : Fault := .other "stream did not contain valid UTF-8"

end ContractBuild.Disk
