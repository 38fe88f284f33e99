/-!
Bounds of the numbers in a program. Sizes, widths and counts have 32 bits, integer literals 64.
-/
namespace OpenQasm.Bound

/-- Sizes, widths and counts are smaller than two to the 32nd. -/
def size : Nat := 4294967296

/-- The greatest size. -/
def largestSize : Nat := size - 1

/-- Integer literals are smaller than two to the 64th. -/
def literal : Nat := 18446744073709551616

/-- Integer values are smaller than two to the 63rd, and not smaller than its negation. -/
def integer : Nat := 9223372036854775808

end OpenQasm.Bound
