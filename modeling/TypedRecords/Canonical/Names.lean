import TypedRecords.Canonical.Basic

/-! Record names within one canonical tree.
A full name stands for one definition: where it occurs again, the record must be the same.
What stands below a repeated record has been seen with its first occurrence. -/
namespace TypedRecords.Canonical

/-- The records met so far, by full name. -/
abbrev Definitions := List (String × Canonical)

mutual
def checkNames (seen : Definitions) : Canonical → Result Definitions
  | .record name space fields props =>
    let full := fullName space name
    match seen.lookup full with
    | some known =>
      if known == .record name space fields props then .ok seen
      else .error (.format (.definedTwice full))
    | none => checkFieldNames ((full, .record name space fields props) :: seen) fields
  | .array items _ => checkNames seen items
  | .union branches => checkBranchNames seen branches
  | _ => .ok seen

def checkBranchNames (seen : Definitions) : List Canonical → Result Definitions
  | [] => .ok seen
  | c :: rest => do checkBranchNames (← checkNames seen c) rest

def checkFieldNames (seen : Definitions) : List Field → Result Definitions
  | [] => .ok seen
  | ⟨_, type, _, _, _, _⟩ :: rest => do checkFieldNames (← checkNames seen type) rest
end

end TypedRecords.Canonical
