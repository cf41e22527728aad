import SatAllocatorTest.Ports.BtreeAgreement
import SatAllocatorTest.Ports.ObjectsQueries
import SatAllocatorTest.Ports.MemoryWindow
import SatAllocatorTest.Ports.ProfileViewSelector
import SatAllocatorTest.Ports.FlameChart
import SatAllocatorTest.Ports.SamplerFailures
import SatAllocatorTest.Ports.SamplesGraph
import SatAllocatorTest.Ports.CurveGrapher
import SatAllocatorTest.Ports.ScalarGrid
import SatAllocatorTest.Ports.SamplesGrapher
import SatAllocatorTest.Ports.TrimText
import SatAllocatorTest.Ports.FastRand
import SatAllocatorTest.Ports.DataValue
import SatAllocatorTest.Ports.ProfileViewLink
import SatAllocatorTest.Ports.PageHeapReports
import SatAllocatorTest.Ports.SizeMapInit
