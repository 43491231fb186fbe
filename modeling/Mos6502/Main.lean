import Mos6502.Demo

/-!
# The command line

Runs the demonstration and prints its report.
-/

def main : IO Unit := IO.print Mos6502.Demo.output
