import ACRev360.Objects.Records

namespace ACRev360

-- A decoded JSON value. The pairs of an object have different keys.
inductive Json where
  | null
  | bool (b : Bool)
  | int (z : ℤ)
  | float (q : ℚ)
  | str (s : String)
  | arr (l : List Json)
  | obj (l : List (String × Json))

namespace Json

def truthy : Json → Bool
  | null    => false
  | bool b  => b
  | int z   => z ≠ 0
  | float q => q ≠ 0
  | str s   => s ≠ ""
  | arr l   => !l.isEmpty
  | obj l   => !l.isEmpty

def isNull : Json → Bool
  | null => true
  | _    => false

-- dict.get
def getField (l : List (String × Json)) (k : String) : Json :=
  (l.lookup k).getD null

-- `str(v) == str(n)`
def strEq (v : Json) (n : ℕ) : Bool :=
  match v with
  | int z => z = n
  | str s => s = toString n
  | _     => false

-- A text with a NUL, which no column takes.
mutual

def hasNul : Json → Bool
  | str s => s.toList.contains (Char.ofNat 0)
  | arr l => hasNulIn l
  | obj l => hasNulAt l
  | _     => false

def hasNulIn : List Json → Bool
  | []     => false
  | v :: l => hasNul v || hasNulIn l

def hasNulAt : List (String × Json) → Bool
  | []          => false
  | (k, v) :: l => k.toList.contains (Char.ofNat 0) || hasNul v || hasNulAt l

end

end Json

-- The validated data of PostPaymentSerializer.
structure PaymentForm where
  billId      : ℤ
  amount      : ℚ
  channelCode : ChannelCode
  bankTxnRef  : String
  terminalId  : Option ℤ
  geo         : Option (List (String × Json))

-- The validated data of CreatePayerSerializer, and whether it has an assigned_consultant_id.
structure PayerForm extends PayerFields where
  revenueItemIds          : List ℤ
  hasAssignedConsultantId : Bool

-- What the services take from the libraries they are built on: the validation of the two serializers
-- and the conversion of a value to a DECIMAL(9, 6) column. `none` stands for a refusal.
structure Framework where
  postPayment : Json → Option PaymentForm
  createPayer : List (String × Json) → Option PayerForm
  coordinate  : Json → Option (Option Coordinate)

end ACRev360
