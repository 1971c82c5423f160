import TypedLisp.Ty.Basic

namespace TypedLisp.Ty

mutual

/-- A type is accepted for another. Only between classes does the direction count. -/
def equals : Ty → Ty → Bool
  | aliasOf name parent, b => name == b.name || equals parent b
  | a, aliasOf name parent => name == a.name || equals parent a
  | union i _ options, union j _ options' =>
      i == j || (options'.length == options.length && includesAll options options')
  | union _ _ options, b => someEquals options b
  | a, union _ _ options => someEquals options a
  | primitive p, primitive q => p == q
  | function params result, function params' result' =>
      equalsEach params params' && equals result result'
  | ofClass c, ofClass d => c.inherits d
  | template s, template t => s.serial == t.serial
  | _, _ => false
termination_by a b => sizeOf a + sizeOf b

/-- Lists of the same length, equal at each place. -/
def equalsEach : List Ty → List Ty → Bool
  | [], [] => true
  | a :: as, b :: bs => equals a b && equalsEach as bs
  | _, _ => false
termination_by as bs => sizeOf as + sizeOf bs

def someEquals : List Ty → Ty → Bool
  | [], _ => false
  | o :: options, b => equals o b || someEquals options b
termination_by options b => sizeOf options + sizeOf b

/-- The options of a union take a type: another union if it has as many options and all are taken.
-/
def includes (options : List Ty) : Ty → Bool
  | union _ _ options' => options'.length == options.length && includesAll options options'
  | b => someEquals options b
termination_by b => sizeOf options + sizeOf b + 1

def includesAll (options : List Ty) : List Ty → Bool
  | [] => true
  | b :: bs => includes options b && includesAll options bs
termination_by bs => sizeOf options + sizeOf bs
decreasing_by
  · have : 0 < sizeOf bs := by
      cases bs
      · simp
      · simp only [List.cons.sizeOf_spec]
        omega
    simp only [List.cons.sizeOf_spec]
    omega
  · simp only [List.cons.sizeOf_spec]
    omega

end

end TypedLisp.Ty
