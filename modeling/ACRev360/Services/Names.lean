import ACRev360.Library.Words
import ACRev360.Objects.Records

namespace ACRev360

-- str.split
def split (s : String) : List String :=
  (words isSpace s.toList).map String.ofList

def splitFullName (fullName : String) : String × String × String :=
  match split fullName with
  | []              => ("", "", "")
  | [token]         => (token, "", "")
  | token :: t :: ts =>
    (token, " ".intercalate (t :: ts).dropLast, (t :: ts).getLast (List.cons_ne_nil _ _))

-- The three names of a payer are set at once.
def Payer.rename (p : Payer) (names : String × String × String) : Payer :=
  { p with firstName := names.1, middleName := names.2.1, lastName := names.2.2 }

-- Payer.full_name
def Payer.fullName (p : Payer) : String :=
  " ".intercalate <| [p.firstName, p.middleName, p.lastName].filter (· ≠ "")

-- The condition of name_search_q on a token, and on all that are searched for.
def Payer.hasToken (icontains : String → String → Bool) (p : Payer) (token : String) : Bool :=
  icontains p.firstName token || icontains p.middleName token || icontains p.lastName token

def nameSearchQ (icontains : String → String → Bool) (q : String) (p : Payer) : Bool :=
  (split q).all (p.hasToken icontains)

end ACRev360
